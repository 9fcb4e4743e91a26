import Citadel.Lib.Probing
import Citadel.Lib.Transition
import Mathlib.Data.UInt

/-!
# `hcreate_r` and `hsearch_r`

The table of `src/search.c` is a list of slots; an entry is found by its key. A string is the list
of its bytes without the final zero. `hsearchR` returns `none` where the loop of the source does
not end or leaves the table.

* `hsearch_correct`: over every run of `ENTER` and `FIND` the table is a map from the keys that were
  entered to the data they were first entered with (`Correct`).
-/

namespace Citadel.Search.Hsearch

open Citadel.Lib.Probing Citadel.Lib.Transition List Nat

variable {D : Type}

structure Entry (D : Type) where
  key : List UInt8
  data : D
deriving DecidableEq

structure HTab (D : Type) where
  e : List (Option (Entry D))
  mask : ℕ
  used : ℕ
  k0 : UInt64
  k1 : UInt64
deriving DecidableEq

inductive Action where
  | find
  | enter
deriving DecidableEq

inductive Errno where
  | esrch
  | enomem
deriving DecidableEq

/-! ## SipHash-1-3 -/

def rotl (x b : UInt64) : UInt64 := x <<< b ||| x >>> (64 - b)

structure Sip where
  v0 : UInt64
  v1 : UInt64
  v2 : UInt64
  v3 : UInt64

def sipRound (v : Sip) : Sip :=
  let v0 := v.v0 + v.v1
  let v1 := rotl v.v1 13 ^^^ v0
  let v0 := rotl v0 32
  let v2 := v.v2 + v.v3
  let v3 := rotl v.v3 16 ^^^ v2
  let v0 := v0 + v3
  let v3 := rotl v3 21 ^^^ v0
  let v2 := v2 + v1
  let v1 := rotl v1 17 ^^^ v2
  let v2 := rotl v2 32
  ⟨v0, v1, v2, v3⟩

/-- The bytes of a word, the first one lowest. -/
def word (bs : List UInt8) : UInt64 := bs.foldr (fun b w => w <<< 8 ||| b.toUInt64) 0

def absorb (v : Sip) (m : UInt64) : Sip :=
  let v := sipRound { v with v3 := v.v3 ^^^ m }
  { v with v0 := v.v0 ^^^ m }

/-- The whole words of a string, and the bytes that are left. -/
def absorbWords : Sip → List UInt8 → Sip × List UInt8
  | v, b0 :: b1 :: b2 :: b3 :: b4 :: b5 :: b6 :: b7 :: bs =>
    absorbWords (absorb v (word [b0, b1, b2, b3, b4, b5, b6, b7])) bs
  | v, bs => (v, bs)

def keyhash (t : HTab D) (s : List UInt8) : UInt64 :=
  let c := absorbWords ⟨t.k0 ^^^ 0x736f6d6570736575, t.k1 ^^^ 0x646f72616e646f6d,
    t.k0 ^^^ 0x6c7967656e657261, t.k1 ^^^ 0x7465646279746573⟩ s
  let v := absorb c.1 (UInt64.ofNat s.length <<< 56 ||| word c.2)
  let v := sipRound (sipRound (sipRound { v with v2 := v.v2 ^^^ 0xff }))
  v.v0 ^^^ v.v1 ^^^ v.v2 ^^^ v.v3

/-! ## The table -/

/-- Double the size until it is large enough; the first number bounds the rounds. -/
def growSize (need : ℕ) : ℕ → ℕ → ℕ
  | 0, size => size
  | n + 1, size => if size < need then growSize need n (size * 2) else size

/-- A table for `nel` elements. `alloc` tells whether memory for so many entries is there, `k0` and
`k1` are random. -/
def hcreateR (alloc : ℕ → Bool) (nel : ℕ) (k0 k1 : UInt64) : Option (HTab D) :=
  if nel > (2 ^ 64 - 1) >>> 3 then none
  else
    let size := growSize (nel + nel / 3 + 1) 64 8
    if alloc size then
      some { e := List.replicate size none, mask := size - 1, used := 0, k0 := k0, k1 := k1 }
    else none

/-- The loop of `hsearch_r` from slot `i` on: the slot where it ends. -/
def probeFrom (t : HTab D) (key : List UInt8) : ℕ → ℕ → ℕ → Option ℕ
  | 0, _, _ => none
  | n + 1, i, step =>
    match t.e[i]? with
    | none => none
    | some none => some i
    | some (some x) =>
      if x.key = key then some i else probeFrom t key n ((i + step) &&& t.mask) (step + 1)

/-- `hsearch_r` in a table: the slot that `*ret` points to, or the error. -/
def search (item : Entry D) (act : Action) (t : HTab D) : Option (Except Errno ℕ × HTab D) :=
  match probeFrom t item.key (t.mask + 1) ((keyhash t item.key).toNat &&& t.mask) 1 with
  | none => none
  | some i =>
    if ((t.e[i]?).getD none).isSome then some (.ok i, t)
    else if act = .find ∨ t.used + 1 > t.mask - t.mask / 4 then
      some (.error (if act = .find then .esrch else .enomem), t)
    else some (.ok i, { t with e := t.e.set i (some item), used := t.used + 1 })

def hsearchR (item : Entry D) (act : Action) :
    Option (HTab D) → Option (Except Errno ℕ × Option (HTab D))
  | none => some (.error .esrch, none)
  | some t => (search item act t).map fun r => (r.1, some r.2)

/-! ## Runs -/

/-- A call and what it returned. -/
structure Op (D : Type) where
  item : Entry D
  act : Action
  result : Except Errno ℕ

/-- A call of `hsearch_r`, with itself and its result as the output. -/
def step (d : Option (HTab D)) (c : Entry D × Action) : Option (Option (HTab D) × Op D) :=
  (hsearchR c.1 c.2 d).map fun r => (r.2, ⟨c.1, c.2, r.1⟩)

/-- A call that entered its item, or found it already there. -/
def Op.entered (o : Op D) : Bool := o.act = .enter && o.result.isOk

/-- The data that a key was first entered with; the newest call is in front. -/
def firstEntered : List (Op D) → List UInt8 → Option D
  | [], _ => none
  | o :: h, k =>
    (firstEntered h k).or (if o.entered ∧ o.item.key = k then some o.item.data else none)

def enteredKeys (h : List (Op D)) : List (List UInt8) := (h.filter Op.entered).map (·.item.key)

/-- The slots that the rounds of a search for `k` look at. -/
def probe (t : HTab D) (k : List UInt8) : ℕ → ℕ
  | 0 => (keyhash t k).toNat &&& t.mask
  | j + 1 => (probe t k j + (j + 1)) &&& t.mask

/-- The table after the calls `h`. -/
structure Correct (nel : ℕ) (t : HTab D) (h : List (Op D)) : Prop where
  spare : ∃ i : ℕ, t.e[i]? = some none
  visits : ∀ k, ∀ i < t.e.length, ∃ j < t.e.length, probe t k j = i
  returns : ∀ item act, ∃ r, search item act t = some r
  find : ∀ item v, firstEntered h item.key = some v ↔
    ∃ i, search item .find t = some (.ok i, t) ∧ t.e[i]? = some (some ⟨item.key, v⟩)
  absent : ∀ item, firstEntered h item.key = none ↔ search item .find t = some (.error .esrch, t)
  once : Once Entry.key t.e
  room : (enteredKeys h).toFinset.card < nel → ∀ item,
    ∃ i t', search item .enter t = some (.ok i, t')
  failed : ∀ item err t', search item .enter t = some (.error err, t') → t' = t

/-! ## One search -/

/-- What every call keeps. -/
structure Good (nel : ℕ) (t : HTab D) (h : List (Op D)) : Prop where
  size : ∃ n, t.e.length = 2 ^ n
  mask : t.mask + 1 = t.e.length
  used : load t.e = t.used
  bound : t.used ≤ t.mask - t.mask / 4
  capacity : nel ≤ t.mask - t.mask / 4
  placed : Placed Entry.key (probe t) t.e
  once : Once Entry.key t.e
  stored : ∀ k v, firstEntered h k = some v ↔ (⟨k, v⟩ : Entry D) ∈ elements t.e

variable {nel : ℕ} {t : HTab D} {h : List (Op D)}

theorem and_mask {n : ℕ} (hm : t.mask + 1 = 2 ^ n) (x : ℕ) : x &&& t.mask = x % 2 ^ n := by
  rw [← and_two_pow_sub_one_eq_mod, ← hm, Nat.add_sub_cancel]

theorem probe_eq {n : ℕ} (hm : t.mask + 1 = 2 ^ n) (k : List UInt8) :
    ∀ j, probe t k j = ((keyhash t k).toNat + tri j) % 2 ^ n
  | 0 => and_mask hm _
  | j + 1 => by
    rw [probe, and_mask hm, probe_eq hm k j, mod_add_mod, tri, Nat.add_assoc]

theorem probe_congr {t' : HTab D} (k : List UInt8) (hm : t'.mask = t.mask) (h0 : t'.k0 = t.k0)
    (h1 : t'.k1 = t.k1) : ∀ j, probe t' k j = probe t k j
  | 0 => by rw [probe, probe, keyhash, keyhash, hm, h0, h1]
  | j + 1 => by rw [probe, probe, probe_congr k hm h0 h1 j, hm]

theorem Good.visits (ht : Good nel t h) (k : List UInt8) {i : ℕ} (hi : i < t.e.length) :
    ∃ j < t.e.length, probe t k j = i := by
  obtain ⟨n, hn⟩ := ht.size
  rw [hn] at hi ⊢
  obtain ⟨j, hj, hji⟩ := exists_tri n (keyhash t k).toNat hi
  exact ⟨j, hj, (probe_eq (ht.mask.trans hn) k j).trans hji⟩

theorem Good.probe_lt (ht : Good nel t h) (k : List UInt8) (j : ℕ) : probe t k j < t.e.length := by
  obtain ⟨n, hn⟩ := ht.size
  rw [probe_eq (ht.mask.trans hn), hn]
  exact mod_lt _ (Nat.two_pow_pos n)

theorem Good.spare (ht : Good nel t h) : ∃ i : ℕ, t.e[i]? = some none := by
  refine exists_empty ?_
  rw [ht.used, ← ht.mask]
  have := ht.bound
  omega

theorem Good.stops (ht : Good nel t h) (k : List UInt8) :
    ∃ j < t.e.length, Stops Entry.key (probe t) t.e k j := by
  obtain ⟨i, hi⟩ := ht.spare
  obtain ⟨j, hj, rfl⟩ := ht.visits k (List.getElem?_eq_some_iff.mp hi).1
  have hstops : ∃ m ≤ j, Stops Entry.key (probe t) t.e k m :=
    exists_stops (fun l => ht.probe_lt k l) hi
  obtain ⟨m, hm, hs⟩ := hstops
  exact ⟨m, lt_of_le_of_lt hm hj, hs⟩

theorem probeFrom_eq {k : List UInt8} {m : ℕ} (hs : Stops Entry.key (probe t) t.e k m) :
    ∀ (n j : ℕ), j ≤ m → m < j + n → probeFrom t k n (probe t k j) (j + 1) = some (probe t k m)
  | 0, j, hj, hn => by omega
  | n + 1, j, hj, hn => by
    rw [probeFrom]
    rcases Nat.lt_or_eq_of_le hj with hlt | rfl
    · obtain ⟨y, hy, hne⟩ := hs.before j hlt
      rw [hy]
      simp only [if_neg hne]
      exact probeFrom_eq hs n (j + 1) hlt (by omega)
    · rcases hs.here with he | ⟨y, hy, hk⟩
      · rw [he]
      · rw [hy]
        simp only [if_pos hk]

theorem Good.search_cases (ht : Good nel t h) (item : Entry D) (act : Action) :
    (∃ i x, t.e[i]? = some (some x) ∧ x.key = item.key ∧ search item act t = some (.ok i, t)) ∨
    ((∀ x ∈ elements t.e, x.key ≠ item.key) ∧
      ((act = .find ∧ search item act t = some (.error .esrch, t)) ∨
      (act = .enter ∧ t.mask - t.mask / 4 < t.used + 1 ∧
        search item act t = some (.error .enomem, t)) ∨
      ∃ j, Stops Entry.key (probe t) t.e item.key j ∧ t.e[probe t item.key j]? = some none ∧
        act = .enter ∧ t.used + 1 ≤ t.mask - t.mask / 4 ∧
        search item act t = some (.ok (probe t item.key j),
          { t with e := t.e.set (probe t item.key j) (some item), used := t.used + 1 }))) := by
  obtain ⟨j, hj, hs⟩ := ht.stops item.key
  have hprobe : probeFrom t item.key (t.mask + 1) ((keyhash t item.key).toNat &&& t.mask) 1 =
      some (probe t item.key j) := probeFrom_eq hs (t.mask + 1) 0 (Nat.zero_le j) (by
    have := ht.mask
    omega)
  unfold search
  rw [hprobe]
  rcases hs.here with he | ⟨x, hx, hk⟩
  · refine .inr ⟨fun x hx => ?_, ?_⟩
    · obtain ⟨i, hi⟩ := mem_elements.mp hx
      exact hs.absent he ht.placed hi
    · simp only [he, Option.getD_some, Option.isSome_none, Bool.false_eq_true, if_false]
      cases act with
      | find => exact .inl ⟨rfl, by simp⟩
      | enter =>
        by_cases hfull : t.used + 1 > t.mask - t.mask / 4
        · exact .inr (.inl ⟨rfl, hfull, by simp [hfull]⟩)
        · exact .inr (.inr ⟨j, hs, he, rfl, not_lt.mp hfull, by simp [hfull]⟩)
  · refine .inl ⟨_, x, hx, hk, ?_⟩
    simp [hx]

/-! ## Runs of calls -/

theorem mem_enteredKeys {k : List UInt8} : ∀ {h : List (Op D)},
    k ∈ enteredKeys h ↔ ∃ v, firstEntered h k = some v
  | [] => ⟨fun hk => absurd hk not_mem_nil, nofun⟩
  | o :: h => by
    have ih := mem_enteredKeys (k := k) (h := h)
    rw [enteredKeys, mem_map] at ih ⊢
    cases hf : firstEntered h k with
    | some v =>
      obtain ⟨o', ho', hk⟩ := ih.mpr ⟨v, hf⟩
      refine ⟨fun _ => ⟨v, by simp [firstEntered, hf]⟩, fun _ => ⟨o', ?_, hk⟩⟩
      exact mem_filter.mpr ⟨mem_cons_of_mem o (mem_filter.mp ho').1,
        (mem_filter.mp ho').2⟩
    | none =>
      simp only [hf, reduceCtorEq, exists_false, iff_false] at ih
      constructor
      · rintro ⟨o', ho', hk⟩
        obtain ⟨hmem, hent⟩ := mem_filter.mp ho'
        rcases mem_cons.mp hmem with rfl | hmem
        · exact ⟨o'.item.data, by simp [firstEntered, hf, hent, hk]⟩
        · exact absurd ⟨o', mem_filter.mpr ⟨hmem, hent⟩, hk⟩ ih
      · rintro ⟨v, hv⟩
        rw [firstEntered, hf, Option.none_or] at hv
        split_ifs at hv with ho
        exact ⟨o, mem_filter.mpr ⟨mem_cons_self, ho.1⟩, ho.2⟩

theorem firstEntered_cons {o : Op D} {k : List UInt8}
    (ho : o.entered = true → ∃ v, firstEntered h o.item.key = some v) :
    firstEntered (o :: h) k = firstEntered h k := by
  rw [firstEntered]
  by_cases hk : o.entered = true ∧ o.item.key = k
  · obtain ⟨v, hv⟩ := ho hk.1
    rw [hk.2] at hv
    rw [hv]
    rfl
  · rw [if_neg hk, Option.or_none]

section

variable (ht : Good nel t h)
include ht

theorem Good.unchanged {o : Op D}
    (ho : o.entered = true → ∃ v, firstEntered h o.item.key = some v) : Good nel t (o :: h) :=
  { ht with stored := fun k v => by rw [firstEntered_cons ho]; exact ht.stored k v }

theorem Good.insert {item : Entry D} {j : ℕ}
    (hs : Stops Entry.key (probe t) t.e item.key j) (he : t.e[probe t item.key j]? = some none)
    (hroom : t.used + 1 ≤ t.mask - t.mask / 4) (i : ℕ) :
    Good nel { t with e := t.e.set (probe t item.key j) (some item), used := t.used + 1 }
      (⟨item, .enter, .ok i⟩ :: h) where
  size := by
    rw [length_set]
    exact ht.size
  mask := by
    rw [length_set]
    exact ht.mask
  used := (load_set he).trans (congrArg (· + 1) ht.used)
  bound := hroom
  capacity := ht.capacity
  placed := by
    have hsame :
        probe { t with e := t.e.set (probe t item.key j) (some item), used := t.used + 1 } =
          probe t := by
      funext k l
      refine probe_congr k ?_ ?_ ?_ l <;> rfl
    rw [hsame]
    exact hs.placed he ht.placed
  once := hs.once he ht.placed ht.once
  stored k v := by
    have habsent : ∀ w, firstEntered h item.key ≠ some w := by
      intro w hw
      obtain ⟨l, hl⟩ := mem_elements.mp ((ht.stored item.key w).mp hw)
      exact hs.absent he ht.placed hl rfl
    rw [mem_elements_set he, ← ht.stored k v, firstEntered]
    by_cases hk : item.key = k
    · subst hk
      rw [Option.eq_none_iff_forall_ne_some.mpr habsent]
      obtain ⟨key, data⟩ := item
      simp [Op.entered, Except.isOk, Except.toBool, eq_comm]
    · have hne : (⟨k, v⟩ : Entry D) ≠ item := fun h => hk (congrArg Entry.key h).symm
      simp [hk, hne]

theorem Good.found {i : ℕ} {x : Entry D} (hx : t.e[i]? = some (some x)) :
    firstEntered h x.key = some x.data := (ht.stored x.key x.data).mpr (mem_elements.mpr ⟨i, hx⟩)

theorem Good.step {item : Entry D} {act : Action} {r : Except Errno ℕ}
    {t' : HTab D} (hr : search item act t = some (r, t')) : Good nel t' (⟨item, act, r⟩ :: h) := by
  rcases ht.search_cases item act with ⟨i, x, hx, hk, heq⟩ |
      ⟨-, ⟨rfl, heq⟩ | ⟨rfl, -, heq⟩ | ⟨j, hs, he, rfl, hroom, heq⟩⟩
  all_goals
    rw [heq] at hr
    cases hr
  · exact ht.unchanged fun _ => ⟨x.data, hk ▸ ht.found hx⟩
  · exact ht.unchanged fun ho => absurd ho (by simp [Op.entered])
  · exact ht.unchanged fun ho => absurd ho (by simp [Op.entered, Except.isOk, Except.toBool])
  · exact ht.insert hs he hroom _

theorem Good.card : (enteredKeys h).toFinset.card = t.used := by
  have hsame : (enteredKeys h).toFinset = ((elements t.e).map Entry.key).toFinset := by
    ext k
    rw [mem_toFinset, mem_toFinset, mem_enteredKeys, mem_map]
    constructor
    · rintro ⟨v, hv⟩
      exact ⟨⟨k, v⟩, (ht.stored k v).mp hv, rfl⟩
    · rintro ⟨x, hx, rfl⟩
      exact ⟨x.data, (ht.stored x.key x.data).mpr hx⟩
  rw [hsame, toFinset_card_of_nodup ht.once.nodup, length_map, length_elements, ht.used]

theorem Good.correct : Correct nel t h where
  spare := ht.spare
  visits k _ hi := ht.visits k hi
  returns item act := by
    rcases ht.search_cases item act with ⟨i, x, -, -, heq⟩ |
      ⟨-, ⟨-, heq⟩ | ⟨-, -, heq⟩ | ⟨j, -, -, -, -, heq⟩⟩
    all_goals exact ⟨_, heq⟩
  find item v := by
    constructor
    · intro hv
      have hmem := (ht.stored item.key v).mp hv
      rcases ht.search_cases item .find with ⟨i, x, hx, hk, heq⟩ | ⟨habs, -⟩
      · refine ⟨i, heq, ?_⟩
        have hxv := ht.found hx
        rw [hk, hv] at hxv
        obtain ⟨key, data⟩ := x
        cases hxv
        rw [hx, ← hk]
      · exact absurd rfl (habs ⟨item.key, v⟩ hmem)
    · rintro ⟨i, -, hi⟩
      exact ht.found hi
  absent item := by
    rcases ht.search_cases item .find with ⟨i, x, hx, hk, heq⟩ |
      ⟨habs, ⟨-, heq⟩ | ⟨hact, -⟩ | ⟨j, -, -, hact, -⟩⟩
    · have hxv := ht.found hx
      rw [hk] at hxv
      rw [hxv, heq]
      simp
    · refine ⟨fun _ => heq, fun _ => Option.eq_none_iff_forall_ne_some.mpr fun v hv => ?_⟩
      exact habs ⟨item.key, v⟩ ((ht.stored item.key v).mp hv) rfl
    · cases hact
    · cases hact
  once := ht.once
  room hlt item := by
    rcases ht.search_cases item .enter with ⟨i, x, -, -, heq⟩ |
      ⟨-, ⟨hact, -⟩ | ⟨-, hfull, -⟩ | ⟨j, -, -, -, -, heq⟩⟩
    · exact ⟨i, t, heq⟩
    · cases hact
    · rw [ht.card] at hlt
      have := ht.capacity
      omega
    · exact ⟨_, _, heq⟩
  failed item err t' hr := by
    rcases ht.search_cases item .enter with ⟨i, x, -, -, heq⟩ |
      ⟨-, ⟨hact, -⟩ | ⟨-, -, heq⟩ | ⟨j, -, -, -, -, heq⟩⟩
    · rw [heq] at hr
      cases hr
    · cases hact
    · rw [heq] at hr
      exact (Prod.mk.inj (Option.some.inj hr)).2.symm
    · rw [heq] at hr
      cases hr

end

/-! ## A new table -/

theorem growSize_eq (need : ℕ) : ∀ (n a : ℕ), need ≤ 2 ^ (a + n) →
    ∃ m, a ≤ m ∧ growSize need n (2 ^ a) = 2 ^ m ∧ need ≤ 2 ^ m
  | 0, a, h => ⟨a, le_rfl, rfl, h⟩
  | n + 1, a, h => by
    rw [growSize]
    split_ifs with hlt
    · obtain ⟨m, hm, heq, hle⟩ := growSize_eq need n (a + 1) (by rwa [Nat.add_right_comm])
      exact ⟨m, by omega, by rw [← pow_succ, heq], hle⟩
    · exact ⟨a, le_rfl, rfl, not_lt.mp hlt⟩

theorem good_hcreateR {alloc : ℕ → Bool} {k0 k1 : UInt64} (ht : hcreateR alloc nel k0 k1 = some t) :
    Good nel t [] := by
  unfold hcreateR at ht
  split_ifs at ht with hbig
  obtain ⟨m, hm, heq, hle⟩ := growSize_eq (nel + nel / 3 + 1) 64 3 (by omega)
  have h8 : 2 ^ 3 ≤ 2 ^ m := Nat.pow_le_pow_right (by omega) hm
  rw [show growSize (nel + nel / 3 + 1) 64 8 = 2 ^ m from heq] at ht
  dsimp only at ht
  split_ifs at ht
  obtain rfl := (Option.some.inj ht).symm
  have hempty : ∀ (i : ℕ) (x : Entry D), (List.replicate (2 ^ m) none)[i]? ≠ some (some x) := by
    intro i x hi
    have := eq_of_mem_replicate (mem_of_getElem? hi)
    cases this
  refine ⟨⟨m, length_replicate⟩, ?_, ?_, Nat.zero_le _, ?_, fun i x hi => absurd hi (hempty i x),
    fun i _ x _ hi => absurd hi (hempty i x), fun k v => ⟨nofun, fun hmem => ?_⟩⟩
  · rw [length_replicate]
    exact Nat.sub_add_cancel (by omega)
  · rw [load, countP_replicate]
    rfl
  · change nel ≤ (2 ^ m - 1) - (2 ^ m - 1) / 4
    omega
  · obtain ⟨i, hi⟩ := mem_elements.mp hmem
    exact absurd hi (hempty i _)

/-- **The hash table is a map**: over every run of calls on a new table. -/
theorem hsearch_correct {alloc : ℕ → Bool} {k0 k1 : UInt64} (ht : hcreateR alloc nel k0 k1 = some t)
    (cs : List (Entry D × Action)) :
    Always step (fun d h => ∃ t, d = some t ∧ Correct nel t h) (some t) [] cs := by
  have hinv : Always step (fun d h => ∃ t, d = some t ∧ Good nel t h) (some t) [] cs := by
    refine .of_invariant ?_ ⟨t, rfl, good_hcreateR ht⟩
    rintro d h ⟨item, act⟩ d' o ⟨t, rfl, hg⟩ hstep
    rw [Hsearch.step, hsearchR] at hstep
    obtain ⟨r, hr, heq⟩ := Option.map_eq_some_iff.mp hstep
    obtain ⟨⟨r, t'⟩, hs, rfl⟩ := Option.map_eq_some_iff.mp hr
    cases heq
    exact ⟨t', rfl, hg.step hs⟩
  exact hinv.mono fun d h ⟨t, hd, hg⟩ => ⟨t, hd, hg.correct⟩

theorem hsearch_correct_four : hcreateR (fun _ => true) 4 0 0 =
      some (⟨List.replicate 8 none, 7, 0, 0, 0⟩ : HTab ℕ) ∧
    Always step (fun d h => ∃ t, d = some t ∧ Correct 4 t h)
      (some (⟨List.replicate 8 none, 7, 0, 0, 0⟩ : HTab ℕ)) []
      [(⟨[97], 1⟩, .enter), (⟨[98], 2⟩, .enter), (⟨[97], 3⟩, .enter), (⟨[97], 0⟩, .find)] := by
  have ht : hcreateR (fun _ => true) 4 0 0 =
      some (⟨List.replicate 8 none, 7, 0, 0, 0⟩ : HTab ℕ) := by decide
  exact ⟨ht, hsearch_correct ht _⟩

end Citadel.Search.Hsearch
