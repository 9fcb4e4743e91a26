import Citadel.Env.Environ
import Mathlib.Data.List.Nodup
import Mathlib.Data.List.TakeWhile
import Mathlib.Data.Nat.Init
import Mathlib.Order.Basic

/-!
# No entry of the environment is a released string

`setenv` remembers the strings it allocates and releases a string when it leaves the array. A
string that it allocated and that the program hands back through `putenv` takes its own place in the
array, and is then released as the string that was replaced.

* `Sound`: what has to hold at every point of a run.
* `sound_iff_notOwned`: it does exactly when `putenv` is never given a string that is owned.
* `putenv_of_entry_dangles`: a run in which it is.
-/

namespace Citadel.Env

open Citadel.Lib.Transition List Function Option Prod

/-! ## Names -/

/-- The name of a string `name=value`. -/
def nameOf (e : List UInt8) : Option (List UInt8) :=
  if nameLen e < e.length then some (e.take (nameLen e)) else none

theorem nameLen_le (e : List UInt8) : nameLen e ≤ e.length :=
  IsPrefix.length_le <| takeWhile_prefix _

variable {n e : List UInt8} {x : Str} {s s' : State} {t : List Event} {h : List Done}

theorem nameLen_append (hn : eqSign ∉ n) (v : List UInt8) :
    nameLen (n ++ eqSign :: v) = n.length := by
  have h : ∀ a ∈ n, decide (a ≠ eqSign) = true := by
    intro a ha
    exact decide_eq_true fun h => hn (h ▸ ha)
  rw [nameLen, takeWhile_append_of_pos h, takeWhile_cons_of_neg (by simp),
    append_nil]

theorem eqSign_notMem_take (e : List UInt8) : eqSign ∉ e.take (nameLen e) := by
  intro h
  rw [nameLen, ← prefix_iff_eq_take.mp <| takeWhile_prefix _] at h
  simpa using mem_takeWhile_imp h

theorem getElem?_nameLen (h : nameLen e < e.length) : e[nameLen e]? = some eqSign := by
  have hd : e.drop (nameLen e) = e.dropWhile (· ≠ eqSign) := by
    have h := congrArg (drop (nameLen e))
      (takeWhile_append_dropWhile (p := (· ≠ eqSign)) (l := e))
    exact h.symm.trans drop_left
  have hne : e.dropWhile (· ≠ eqSign) ≠ [] := by
    rw [← hd]
    simpa using h
  have hhead := head_dropWhile_not (· ≠ eqSign) hne
  rw [← head?_drop, hd, head?_eq_some_head hne]
  simpa using hhead

theorem nameOf_eq_some_iff :
    nameOf e = some n ↔ eqSign ∉ n ∧ e.take n.length = n ∧ e[n.length]? = some eqSign := by
  constructor
  · intro h
    unfold nameOf at h
    split_ifs at h with hl
    cases h
    have hlen : (e.take (nameLen e)).length = nameLen e := length_take_of_le (nameLen_le e)
    rw [hlen]
    exact ⟨eqSign_notMem_take e, rfl, getElem?_nameLen hl⟩
  · rintro ⟨hn, ht, he⟩
    obtain ⟨hlt, hv⟩ := List.getElem?_eq_some_iff.mp he
    have hsplit : e = n ++ eqSign :: e.drop (n.length + 1) := by
      conv_lhs => rw [← take_append_drop n.length e]
      rw [ht, drop_eq_getElem_cons hlt, hv]
    have hl : nameLen e = n.length := by
      rw [hsplit]
      exact nameLen_append hn _
    rw [nameOf, hl, if_pos hlt, ht]

theorem hasName_iff (s e : List UInt8) :
    hasName s (nameLen s) e = true ↔ nameOf e = some (s.take (nameLen s)) := by
  have hlen : (s.take (nameLen s)).length = nameLen s := length_take_of_le (nameLen_le s)
  rw [nameOf_eq_some_iff, hlen]
  simp only [hasName, Bool.and_eq_true, decide_eq_true_eq]
  exact ⟨fun h => ⟨eqSign_notMem_take s, h⟩, fun h => h.2⟩

theorem nameOf_of_lt (h : nameLen e ≠ e.length) : nameOf e = some (e.take (nameLen e)) :=
  if_pos (lt_of_le_of_ne (nameLen_le e) h)

theorem badName_eq_false_iff : badName n = false ↔ n ≠ [] ∧ eqSign ∉ n := by
  have hle := nameLen_le n
  simp only [badName, Bool.or_eq_false_iff, decide_eq_false_iff_not, not_lt]
  constructor
  · rintro ⟨h0, h1⟩
    have heq : nameLen n = n.length := le_antisymm hle h1
    refine ⟨?_, ?_⟩
    · rintro rfl
      exact h0 rfl
    · have := eqSign_notMem_take n
      rwa [heq, take_length] at this
  · rintro ⟨h0, h1⟩
    have heq : nameLen n = n.length := by
      rw [nameLen, takeWhile_eq_self_iff.mpr]
      intro a ha
      exact decide_eq_true fun h => h1 (h ▸ ha)
    rw [heq]
    exact ⟨fun h => h0 (length_eq_zero_iff.mp h), le_rfl⟩

theorem nameLen_of_badName (h : badName n = false) : nameLen n = n.length := by
  have := (Bool.or_eq_false_iff.mp h).2
  exact le_antisymm (nameLen_le n) (not_lt.mp (of_decide_eq_false this))

theorem hasName_name_iff (h : badName n = false) (e : List UInt8) :
    hasName n (nameLen n) e = true ↔ nameOf e = some n := by
  rw [hasName_iff, nameLen_of_badName h, take_length]

theorem nameOf_append (h : badName n = false) (v : List UInt8) :
    nameOf (n ++ eqSign :: v) = some n := by
  refine nameOf_eq_some_iff.mpr ⟨(badName_eq_false_iff.mp h).2, take_left, ?_⟩
  rw [getElem?_append_right le_rfl, Nat.sub_self]
  rfl

/-! ## Strings that are allocated -/

/-- The string is allocated after these events, the newest first. -/
def live : List Event → Str → Prop
  | [], _ => False
  | .malloc x :: t, y => x = y ∨ live t y
  | .free x :: t, y => x ≠ y ∧ live t y

/-- Only strings that are allocated are released. -/
def freesOnce : List Event → Prop
  | [] => True
  | .malloc _ :: t => freesOnce t
  | .free x :: t => live t x ∧ freesOnce t

def trace (h : List Done) : List Event := h.flatMap Done.events

/-- The strings that are owned are those that are allocated. -/
structure Tracked (s : State) (t : List Event) : Prop where
  nodup : s.owned.Nodup
  heapNodup : s.heap.Nodup
  mem_heap : ∀ x, x ∈ s.heap ↔ x ∈ s.owned
  live_iff : ∀ x, live t x ↔ x ∈ s.owned
  once : freesOnce t
  isHeap : ∀ x ∈ s.owned, ∃ a, x = .heap a

theorem swapRemove_perm {l : List Str} (h : x ∈ l) :
    (swapRemove l (l.idxOf x)).Perm (l.erase x) := by
  obtain ⟨l', y, rfl⟩ : ∃ l' y, l = l' ++ [y] :=
    ⟨l.dropLast, l.getLast (ne_nil_of_mem h), (dropLast_append_getLast _).symm⟩
  unfold swapRemove
  rw [show (l' ++ [y]).getLastD (.user 0) = y by simp]
  by_cases hx : x ∈ l'
  · -- the last string takes the place of the one removed
    obtain ⟨a, b, rfl, ha⟩ := eq_append_cons_of_mem hx
    have hi : (a ++ x :: b ++ [y]).idxOf x = a.length := by
      rw [append_assoc, idxOf_append_of_notMem ha, cons_append,
        idxOf_cons_self, Nat.add_zero]
    rw [hi, append_assoc, set_append_right _ _ le_rfl, Nat.sub_self, cons_append,
      set_cons_zero, erase_append_right _ ha, erase_cons_head, ← cons_append,
      ← append_assoc, dropLast_concat]
    refine List.Perm.append_left a ?_
    exact (perm_append_singleton y b).symm
  · obtain rfl : x = y := by
      rcases mem_append.mp h with h | h
      · exact absurd h hx
      · exact mem_singleton.mp h
    rw [idxOf_append_of_notMem hx, idxOf_cons_self, Nat.add_zero,
      set_append_right _ _ le_rfl, Nat.sub_self, set_cons_zero, dropLast_concat,
      erase_append_right _ hx, erase_cons_head, append_nil]

theorem mem_swapRemove {l : List Str} (hl : l.Nodup) (h : x ∈ l) (y : Str) :
    y ∈ swapRemove l (l.idxOf x) ↔ y ≠ x ∧ y ∈ l := by
  rw [(swapRemove_perm h).mem_iff, hl.mem_erase_iff]

theorem Tracked.release (h : Tracked s t) (x : Str) :
    Tracked (Env.release s x).1 ((Env.release s x).2 ++ t) := by
  unfold Env.release
  split_ifs with hx
  · have hmem := mem_swapRemove h.nodup hx
    refine ⟨?_, h.heapNodup.erase x, ?_, ?_, ⟨(h.live_iff x).mpr hx, h.once⟩, ?_⟩
    · exact (swapRemove_perm hx).nodup_iff.mpr (h.nodup.erase x)
    · intro y
      rw [h.heapNodup.mem_erase_iff, h.mem_heap, hmem]
    · intro y
      rw [hmem, ← h.live_iff, ne_comm]
      rfl
    · intro y hy
      exact h.isHeap y ((hmem y).mp hy).2
  · exact h

theorem Tracked.mem_release (h : Tracked s t) (x y : Str) :
    y ∈ (Env.release s x).1.owned ↔ y ≠ x ∧ y ∈ s.owned := by
  unfold Env.release
  split_ifs with hx
  · exact mem_swapRemove h.nodup hx y
  · exact ⟨fun hy => ⟨fun e => hx (e ▸ hy), hy⟩, fun hy => hy.2⟩

theorem release_eq (s : State) (x : Str) :
    (release s x).1 = { s with owned := (release s x).1.owned, heap := (release s x).1.heap } := by
  unfold release
  split_ifs <;> rfl

theorem releaseAll_eq (s : State) (xs : List Str) :
    (releaseAll s xs).1 =
      { s with owned := (releaseAll s xs).1.owned, heap := (releaseAll s xs).1.heap } := by
  induction xs generalizing s with
  | nil => rfl
  | cons x xs ih =>
    rw [releaseAll, ih, release_eq]

theorem releaseAll_mem (s : State) (xs : List Str) : (releaseAll s xs).1.mem = s.mem := by
  rw [releaseAll_eq]

theorem Tracked.releaseAll (h : Tracked s t) (xs : List Str) :
    Tracked (Env.releaseAll s xs).1 ((Env.releaseAll s xs).2 ++ t) ∧
      ∀ y, y ∈ (Env.releaseAll s xs).1.owned ↔ y ∉ xs ∧ y ∈ s.owned := by
  induction xs generalizing s t with
  | nil => exact ⟨h, fun y => by simp [Env.releaseAll]⟩
  | cons x xs ih =>
    obtain ⟨h1, h2⟩ := ih (h.release x)
    rw [Env.releaseAll, append_assoc]
    refine ⟨h1, fun y => ?_⟩
    rw [h2, h.mem_release, mem_cons, not_or]
    exact and_left_comm.trans and_assoc.symm

/-! ## The array -/

/-- **What `env_put` does**: the new string takes the place of the first entry of its name, or is
appended. -/
theorem envPut_spec {l : ℕ} {grows : Bool} {old : Option Str}
    (h : envPut s x l true grows = some (s', old)) : ∃ l₁ l₂ b c,
      s.entries = l₁ ++ (old.toList ++ l₂) ∧ (old = none → l₂ = []) ∧
      (∀ e ∈ l₁, hasName (s.mem x) l (s.mem e) = false) ∧
      (∀ e ∈ old.toList, hasName (s.mem x) l (s.mem e) = true) ∧
      s' = { s with environ := some (l₁ ++ x :: l₂), ours := b, envCap := c } := by
  cases hf : s.entries.findIdx? fun e => hasName (s.mem x) l (s.mem e) with
  | some i =>
    obtain ⟨hi, hy, hlt⟩ := findIdx?_eq_some_iff_getElem.mp hf
    simp only [envPut, hf, if_true, some.injEq, mk.injEq, getElem?_eq_getElem hi] at h
    obtain ⟨rfl, rfl⟩ := h
    refine ⟨s.entries.take i, s.entries.drop (i + 1), s.ours, s.envCap, ?_, by simp, ?_,
      by simpa, ?_⟩
    · rw [toList_some, singleton_append, ← drop_eq_getElem_cons hi, take_append_drop]
    · intro e he
      obtain ⟨j, hj, rfl⟩ := mem_iff_getElem.mp he
      rw [getElem_take]
      exact Bool.eq_false_iff.mpr (hlt j (lt_of_lt_of_le hj (length_take_le i _)))
    · rw [set_eq_take_append_cons_drop, if_pos hi]
  | none =>
    have hno := findIdx?_eq_none_iff.mp hf
    simp only [envPut, hf] at h
    by_cases h1 : s.ours = false ∨ s.entries.length + 2 > s.envCap
    · rw [if_pos h1] at h
      cases grows with
      | false => cases h
      | true =>
        cases h
        exact ⟨s.entries, [], _, _, by simp, fun _ => rfl, hno, by simp, rfl⟩
    · rw [if_neg h1] at h
      cases h
      exact ⟨s.entries, [], s.ours, s.envCap, by simp, fun _ => rfl, hno, by simp, rfl⟩

theorem envPut_keeps {l : ℕ} {grows : Bool} {old : Option Str}
    (h : envPut s x l true grows = some (s', old)) :
    s'.mem = s.mem ∧ s'.owned = s.owned ∧ s'.heap = s.heap := by
  obtain ⟨_, _, _, _, -, -, -, -, rfl⟩ := envPut_spec h
  exact ⟨rfl, rfl, rfl⟩

/-- The array in order: an entry is owned or the program's, and an owned one is the first of its
name. -/
structure Good (s : State) : Prop where
  cover : ∀ x ∈ s.entries, (∃ k, x = .user k) ∨ x ∈ s.owned
  mem_entries : ∀ x ∈ s.owned, x ∈ s.entries
  named : ∀ x ∈ s.owned, ∃ n, n ≠ [] ∧ nameOf (s.mem x) = some n
  first : s.entries.Pairwise fun e x => x ∈ s.owned → nameOf (s.mem e) ≠ nameOf (s.mem x)

namespace Good

variable {s s' r : State}

theorem congr (h : Good s) (he : s'.entries = s.entries) (ho : s'.owned = s.owned)
    (hn : ∀ e ∈ s.entries, nameOf (s'.mem e) = nameOf (s.mem e)) : Good s' := by
  refine ⟨?_, ?_, ?_, ?_⟩
  · rw [he, ho]
    exact h.cover
  · rw [he, ho]
    exact h.mem_entries
  · intro x hx
    rw [ho] at hx
    rw [hn x (h.mem_entries x hx)]
    exact h.named x hx
  · rw [he, ho]
    refine h.first.imp_of_mem fun {e x} he' hx hex ho' => ?_
    rw [hn e he', hn x hx]
    exact hex ho'

variable {x : Str} {t : List Event}

theorem remove (h : Good s) (hT : Tracked s t) (p : Str → Bool)
    (hr : r.entries = s.entries.filter (!p ·)) (hm : r.mem = s.mem)
    (ho : r.owned = (releaseAll s (s.entries.filter p)).1.owned) : Good r := by
  have hmem : ∀ z, z ∈ r.owned ↔ z ∈ s.owned ∧ p z = false := by
    intro z
    rw [ho, (hT.releaseAll _).2, mem_filter, and_comm]
    refine and_congr_right fun hz => ?_
    rw [and_iff_right (h.mem_entries z hz), Bool.not_eq_true]
  refine ⟨?_, ?_, ?_, ?_⟩
  · intro z hz
    rw [hr, mem_filter] at hz
    rw [hmem]
    exact (h.cover z hz.1).imp_right fun hzo => ⟨hzo, by simpa using hz.2⟩
  · intro z hz
    obtain ⟨hz, hp⟩ := (hmem z).mp hz
    rw [hr, mem_filter]
    exact ⟨h.mem_entries z hz, by simp [hp]⟩
  · intro z hz
    rw [hm]
    exact h.named z ((hmem z).mp hz).1
  · rw [hr, hm]
    exact (h.first.sublist filter_sublist).imp fun hab hbo => hab ((hmem _).mp hbo).1

/-- `env_put` and the release of the string that was replaced. -/
theorem put (h : Good s) {grows : Bool} {old : Option Str}
    (hlen : nameLen (s.mem x) ≠ (s.mem x).length) (hne : nameLen (s.mem x) ≠ 0) (hx : x ∉ s.owned)
    (he : envPut s x (nameLen (s.mem x)) true grows = some (s', old)) (hr : r.environ = s'.environ)
    (hm : r.mem = s.mem)
    (ho : ∀ z, z ∈ r.owned ↔ z ∈ s.owned ∨ (z = x ∧ ¬ ∃ k, x = .user k)) (hT : Tracked r t) :
    Good (releaseAll r old.toList).1 := by
  have hname :
      ∀ e, hasName (s.mem x) (nameLen (s.mem x)) e = true ↔ nameOf e = nameOf (s.mem x) := by
    intro e
    rw [hasName_iff, nameOf_of_lt hlen]
  obtain ⟨l₁, l₂, b, c, hs, hnil, hl, hy, rfl⟩ := envPut_spec he
  simp only [hname] at hy
  simp only [← Bool.not_eq_true, hname] at hl
  have hent : (releaseAll r old.toList).1.entries = l₁ ++ x :: l₂ := by
    rw [State.entries, releaseAll_eq]
    exact congrArg (getD · []) hr
  have hmem : (releaseAll r old.toList).1.mem = s.mem := by rw [releaseAll_mem, hm]
  have hrel : ∀ z, z ∈ (releaseAll r old.toList).1.owned ↔
      z ∉ old.toList ∧ (z ∈ s.owned ∨ (z = x ∧ ¬ ∃ k, x = .user k)) := fun z => by
    rw [(hT.releaseAll _).2, ho]
  have hold : ∀ z, z ∈ s.entries ↔ z ∈ l₁ ∨ z ∈ old.toList ∨ z ∈ l₂ := fun z => by
    rw [hs, mem_append, mem_append]
  have hfirst := h.first
  rw [hs, pairwise_append, pairwise_append] at hfirst
  obtain ⟨hp1, ⟨-, hp2, hy2⟩, h12⟩ := hfirst
  -- an entry that stays and is owned now was owned before
  have howned : ∀ z, z ∈ l₁ ∨ z ∈ l₂ → z ∈ (releaseAll r old.toList).1.owned → z ∈ s.owned := by
    intro z hz hzo
    rcases ((hrel z).mp hzo).2 with hz' | ⟨rfl, hk⟩
    · exact hz'
    · exact (h.cover z ((hold z).mpr (hz.imp_right .inr))).resolve_left hk
  refine ⟨?_, ?_, ?_, ?_⟩
  · intro z hz
    rw [hrel]
    have hcover := h.cover z
    rw [hold] at hcover
    rw [hent, mem_append, mem_cons] at hz
    rcases hz with hz | rfl | hz
    · exact (hcover (.inl hz)).imp_right fun hzo => ⟨fun h => hl z hz (hy z h), .inl hzo⟩
    · by_cases hk : ∃ k, z = .user k
      · exact .inl hk
      · refine .inr ⟨fun h => ?_, .inr ⟨rfl, hk⟩⟩
        exact (hcover (.inr (.inl h))).elim hk hx
    · refine (hcover (.inr (.inr hz))).imp_right fun hzo => ⟨fun h => ?_, .inl hzo⟩
      exact hy2 z h z hz hzo rfl
  · intro z hz
    have hze := h.mem_entries z
    rw [hold] at hze
    rw [hrel] at hz
    rw [hent, mem_append, mem_cons]
    tauto
  · intro z hz
    rw [hmem]
    rcases ((hrel z).mp hz).2 with hz | ⟨rfl, -⟩
    · exact h.named z hz
    · refine ⟨_, fun h0 => hne ?_, nameOf_of_lt hlen⟩
      rw [← length_take_of_le (nameLen_le (s.mem z)), h0]
      rfl
  · rw [hent, hmem, pairwise_append, pairwise_cons]
    refine ⟨?_, ⟨?_, ?_⟩, ?_⟩
    · exact hp1.imp_of_mem fun _ hb hab hbo => hab (howned _ (.inl hb) hbo)
    · intro b hb hbo
      cases old with
      | none =>
        rw [hnil rfl] at hb
        cases hb
      | some y =>
        rw [← hy y (mem_singleton_self y)]
        exact hy2 y (mem_singleton_self y) b hb (howned b (.inr hb) hbo)
    · exact hp2.imp_of_mem fun _ hb hab hbo => hab (howned _ (.inr hb) hbo)
    · intro a ha b hb hbo
      rcases mem_cons.mp hb with rfl | hb
      · exact hl a ha
      · exact h12 a ha b (mem_append_right _ hb) (howned b (.inr hb) hbo)

end Good

/-! ## The calls -/

namespace Tracked

variable {s r : State} {t : List Event} {x : Str}

theorem congr (h : Tracked s t) (ho : r.owned = s.owned) (hh : r.heap = s.heap) : Tracked r t := by
  obtain ⟨h1, h2, h3, h4, h5, h6⟩ := h
  rw [← ho] at h1 h3 h4 h6
  rw [← hh] at h2 h3
  exact ⟨h1, h2, h3, h4, h5, h6⟩

theorem push (h : Tracked s t) (hx : x ∉ s.owned) (ha : ∃ a, x = .heap a)
    (ho : r.owned = s.owned ++ [x]) (hh : r.heap = x :: s.heap) : Tracked r (.malloc x :: t) := by
  have hmem : ∀ y, y ∈ r.owned ↔ x = y ∨ y ∈ s.owned := by
    intro y
    rw [ho, mem_append, mem_singleton, or_comm, eq_comm]
  refine ⟨?_, ?_, ?_, ?_, h.once, ?_⟩
  · rw [ho]
    exact concat_eq_append ▸ h.nodup.concat hx
  · rw [hh]
    exact nodup_cons.mpr ⟨fun hc => hx ((h.mem_heap x).mp hc), h.heapNodup⟩
  · intro y
    rw [hh, hmem, mem_cons, h.mem_heap, eq_comm]
  · intro y
    rw [hmem, ← h.live_iff]
    rfl
  · intro y hy
    rcases (hmem y).mp hy with rfl | hy
    · exact ha
    · exact h.isHeap y hy

theorem dropped (h : Tracked s t) (hx : x ∉ s.owned) (ho : r.owned = s.owned)
    (hh : r.heap = s.heap) : Tracked r (.free x :: .malloc x :: t) := by
  obtain ⟨h1, h2, h3, h4, h5, h6⟩ := h.congr ho hh
  refine ⟨h1, h2, h3, fun y => ?_, ⟨.inl rfl, h5⟩, h6⟩
  rw [← h4]
  constructor
  · rintro ⟨hne, rfl | hl⟩
    · exact absurd rfl hne
    · exact hl
  · intro hl
    refine ⟨?_, .inr hl⟩
    rintro rfl
    exact hx ((h.live_iff x).mp hl)

end Tracked

section Calls

variable {s : State} {t : List Event}

theorem growOwned_eq (s : State) : growOwned s = { s with ownedCap := (growOwned s).ownedCap } := by
  unfold growOwned
  by_cases h : s.owned.length = s.ownedCap
  · rw [if_pos h]
  · rw [if_neg h]

section

variable (hT : Tracked s t) (hg : Good s)
include hT hg

theorem good_setenvPut {n v : List UInt8}
    (hn : badName n = false) (hx : x ∉ s.owned) (ha : ∃ a, x = .heap a)
    (hm : s.mem x = n ++ eqSign :: v) (m : Alloc) :
    Tracked (setenvPut { s with heap := x :: s.heap } x (nameLen n) m).1
        ((setenvPut { s with heap := x :: s.heap } x (nameLen n) m).2.2 ++ .malloc x :: t) ∧
      Good (setenvPut { s with heap := x :: s.heap } x (nameLen n) m).1 := by
  have hlen : nameLen (s.mem x) = nameLen n := by
    rw [hm, nameLen_append (badName_eq_false_iff.mp hn).2, nameLen_of_badName hn]
  have hlt : nameLen (s.mem x) ≠ (s.mem x).length := by
    rw [hlen, hm, nameLen_of_badName hn, length_append, length_cons]
    omega
  have hne : nameLen (s.mem x) ≠ 0 := by
    rw [hlen]
    exact fun h => by simp [badName, h] at hn
  have hk : ¬ ∃ k, x = .user k := by
    obtain ⟨a, rfl⟩ := ha
    rintro ⟨k, hk⟩
    cases hk
  unfold setenvPut
  split_ifs with h1
  · exact ⟨hT.dropped hx rfl (erase_cons_head _ _), hg.congr rfl rfl fun _ _ => rfl⟩
  · simp only
    generalize hs1 : growOwned { s with heap := x :: s.heap } = s1
    have hf : s1.mem = s.mem ∧ s1.environ = s.environ ∧ s1.owned = s.owned ∧
        s1.heap = x :: s.heap := by
      rw [← hs1, growOwned_eq]
      exact ⟨rfl, rfl, rfl, rfl⟩
    obtain ⟨hmem, henv, hown, hheap⟩ := hf
    have hg1 : Good s1 := by
      refine hg.congr ?_ hown fun e _ => by rw [hmem]
      rw [State.entries, henv]
      rfl
    cases he : envPut s1 x (nameLen n) true m.environ with
    | none =>
      refine ⟨hT.dropped hx hown ?_, hg1.congr rfl rfl fun _ _ => rfl⟩
      rw [hheap]
      exact erase_cons_head _ _
    | some r =>
      obtain ⟨s2, old⟩ := r
      have hkeep := envPut_keeps he
      have hT2 : Tracked { s2 with owned := s2.owned ++ [x] } (.malloc x :: t) := by
        refine hT.push hx ha ?_ ?_
        · rw [hkeep.2.1, hown]
        · rw [hkeep.2.2, hheap]
      refine ⟨(hT2.releaseAll _).1, ?_⟩
      rw [← hlen, ← hmem] at he
      rw [← hmem] at hlt hne
      rw [← hown] at hx
      refine hg1.put hlt hne hx he rfl hkeep.1 ?_ hT2
      intro z
      rw [mem_append, mem_singleton, hkeep.2.1, and_iff_left hk]

theorem good_setenv (n v : List UInt8) (ow : Bool) {m : Alloc}
    (hm : ∀ a, m.str = some a → Str.heap a ∉ s.heap) :
    Tracked (setenv s n v ow m).1 ((setenv s n v ow m).2.2 ++ t) ∧ Good (setenv s n v ow m).1 := by
  unfold setenv
  cases hn : badName n with
  | true => exact ⟨hT, hg⟩
  | false =>
    rw [if_neg Bool.false_ne_true]
    split_ifs with h1
    · exact ⟨hT, hg⟩
    · cases ha : m.str with
      | none => exact ⟨hT, hg⟩
      | some a =>
        have hx : .heap a ∉ s.owned := fun hc => hm a ha ((hT.mem_heap _).mpr hc)
        have hxe : ∀ e ∈ s.entries, e ≠ .heap a := by
          rintro e he rfl
          rcases hg.cover _ he with ⟨k, hk⟩ | ho
          · cases hk
          · exact hx ho
        have hg' : Good { s with mem := update s.mem (.heap a) (n ++ eqSign :: v) } :=
          hg.congr rfl rfl fun e he => congrArg nameOf (update_of_ne (hxe e he) _ _)
        have hT' : Tracked { s with mem := update s.mem (.heap a) (n ++ eqSign :: v) } t :=
          hT.congr rfl rfl
        have := good_setenvPut hT' hg' hn hx ⟨a, rfl⟩ (update_self _ _ _) m
        simp only [append_assoc, singleton_append]
        exact this

theorem good_unsetenv (n : List UInt8) :
    Tracked (unsetenv s n).1 ((unsetenv s n).2.2 ++ t) ∧ Good (unsetenv s n).1 := by
  unfold unsetenv
  cases hn : badName n with
  | true => exact ⟨hT, hg⟩
  | false =>
    rw [if_neg Bool.false_ne_true]
    cases hes : s.environ with
    | none => exact ⟨hT, hg⟩
    | some es =>
      have he : s.entries = es := by
        rw [State.entries, hes]
        rfl
      refine ⟨((hT.releaseAll _).1).congr rfl rfl, ?_⟩
      refine hg.remove hT (fun e => hasName n (nameLen n) (s.mem e)) ?_ (releaseAll_mem _ _) ?_
      · rw [he]
        rfl
      · rw [he]

theorem good_clearenv : Tracked (clearenv s).1 ((clearenv s).2.2 ++ t) ∧ Good (clearenv s).1 := by
  refine ⟨((hT.releaseAll _).1).congr rfl rfl,
    hg.remove hT (fun _ => true) ?_ (releaseAll_mem _ _) ?_⟩
  · simp only [Bool.not_true, filter_false]
    rfl
  · rw [filter_true]
    rfl

theorem good_putenv (hx : x ∉ s.owned) (hv : s.valid x) (m : Alloc) :
    Tracked (putenv s x m).1 ((putenv s x m).2.2 ++ t) ∧ Good (putenv s x m).1 := by
  unfold putenv
  simp only
  split_ifs with h1 h2
  · exact good_unsetenv hT hg _
  · exact ⟨hT, hg⟩
  · cases he : envPut s x (nameLen (s.mem x)) true m.environ with
    | none => exact ⟨hT, hg⟩
    | some r =>
      obtain ⟨s2, old⟩ := r
      have hkeep := envPut_keeps he
      have hT2 : Tracked s2 t := hT.congr hkeep.2.1 hkeep.2.2
      refine ⟨(hT2.releaseAll _).1, hg.put h1 h2 hx he rfl hkeep.1 ?_ hT2⟩
      intro z
      have hk : ∃ k, x = .user k := by
        cases x with
        | user k => exact ⟨k, rfl⟩
        | heap a => exact absurd ((hT.mem_heap _).mp (of_decide_eq_true hv)) hx
      rw [hkeep.2.1]
      exact ⟨.inl, fun h => h.resolve_right fun h' => h'.2 hk⟩

end

end Calls

/-! ## Whole runs -/

/-- At the start of the process nothing is allocated and every entry is the program's. -/
structure Initial (s : State) : Prop where
  owned : s.owned = []
  heap : s.heap = []
  entries : ∀ x ∈ s.entries, ∃ k, x = .user k

/-- **The environment refers to no released string**: every entry is a string that `setenv` did not
allocate or one in the list of the owned strings, every entry that `setenv` allocated is still
allocated, and no string was released twice. -/
def Sound (s : State) (h : List Done) : Prop :=
  (∀ x ∈ s.entries, (∃ k, x = .user k) ∨ x ∈ s.owned) ∧
    (∀ x ∈ s.entries, (∃ k, x = .user k) ∨ live (trace h) x) ∧ freesOnce (trace h)

/-- The string given to `putenv` is not an owned one. -/
def NotOwned (s : State) (_ : List Done) (c : Call) : Prop := ∀ x m, c = .putenv x m → x ∉ s.owned

theorem Tracked.initial (h : Initial s) : Tracked s [] := by
  constructor <;> simp [h.owned, h.heap, live, freesOnce]

theorem Good.initial (h : Initial s) : Good s := by
  refine ⟨fun x hx => .inl (h.entries x hx), ?_, ?_, ?_⟩ <;> simp [h.owned, pairwise_of_forall]

theorem Good.sound (hT : Tracked s (trace h)) (hg : Good s) : Sound s h :=
  ⟨hg.cover, fun x hx => (hg.cover x hx).imp_right (hT.live_iff x).mpr, hT.once⟩

theorem nameOf_of_writable {k : ℕ} {text : List UInt8} (hw : s.writable k text)
    (hk : Str.user k ∈ s.entries) : nameOf text = nameOf (s.mem (.user k)) := by
  have htake : text.take (nameLen (s.mem (.user k)) + 1) =
      (s.mem (.user k)).take (nameLen (s.mem (.user k)) + 1) := by
    rcases Bool.or_eq_true_iff.mp hw with h | h
    · exact absurd hk (of_decide_eq_true h)
    · exact of_decide_eq_true h
  generalize s.mem (.user k) = old at *
  by_cases hlt : nameLen old < old.length
  · have hname := nameOf_of_lt (ne_of_lt hlt)
    rw [hname]
    obtain ⟨h1, h2, h3⟩ := nameOf_eq_some_iff.mp hname
    rw [length_take_of_le hlt.le] at h2 h3
    refine nameOf_eq_some_iff.mpr ⟨h1, ?_, ?_⟩
    · rw [length_take_of_le hlt.le, ← h2]
      have := congrArg (take (nameLen old)) htake
      rwa [take_take, take_take, Nat.min_eq_left (Nat.le_succ _)] at this
    · rw [length_take_of_le hlt.le, ← h3]
      have := congrArg (·[nameLen old]?) htake
      simpa only [getElem?_take_of_lt (Nat.lt_succ_self _)] using this
  · -- without a name the whole string is kept
    have hlen : old.length ≤ nameLen old + 1 := by omega
    rw [take_of_length_le hlen] at htake
    have hl := congrArg length htake
    rw [length_take] at hl
    have hle := nameLen_le old
    rw [take_of_length_le (by omega)] at htake
    rw [htake]

theorem good_step {c : Call} {d : Done} (hT : Tracked s (trace h))
    (hg : Good s) (hs : step s c = some (s', d)) (hc : NotOwned s h c) :
    Tracked s' (trace (d :: h)) ∧ Good s' := by
  rw [trace, flatMap_cons]
  cases c with
  | setenv n v ow m =>
    simp only [step] at hs
    split_ifs at hs with hm
    cases hs
    refine good_setenv hT hg n v ow fun a ha hx => hm ?_
    rw [ha]
    exact decide_eq_true hx
  | unsetenv n =>
    cases hs
    exact good_unsetenv hT hg n
  | putenv x m =>
    simp only [step] at hs
    split_ifs at hs with hv
    cases hs
    exact good_putenv hT hg (hc x m rfl) hv m
  | clearenv =>
    cases hs
    exact good_clearenv hT hg
  | write k text =>
    simp only [step] at hs
    split_ifs at hs with hw
    cases hs
    refine ⟨hT.congr rfl rfl, hg.congr rfl rfl fun e he => ?_⟩
    by_cases hk : e = .user k
    · subst hk
      simp only [update_self]
      exact nameOf_of_writable hw he
    · simp only [update_of_ne hk]

/-- An owned string given to `putenv` is released and stays in the array. -/
theorem not_sound_putenv {m : Alloc} {d : Done}
    (hT : Tracked s (trace h)) (hg : Good s) (hs : step s (.putenv x m) = some (s', d))
    (hx : x ∈ s.owned) : ¬ Sound s' (d :: h) := by
  obtain ⟨n, hn0, hn⟩ := hg.named x hx
  obtain ⟨l₁, l₂, hl⟩ := append_of_mem (hg.mem_entries x hx)
  have hlt : nameLen (s.mem x) < (s.mem x).length := by
    unfold nameOf at hn
    split_ifs at hn with hlt
    exact hlt
  have hne : nameLen (s.mem x) ≠ 0 := by
    intro h0
    rw [nameOf_of_lt (ne_of_lt hlt), h0] at hn
    exact hn0 (some.inj hn).symm
  have hfirst := hg.first
  rw [hl, pairwise_append] at hfirst
  have hno : ∀ e ∈ l₁, hasName (s.mem x) (nameLen (s.mem x)) (s.mem e) = false := by
    intro e he
    rw [← Bool.not_eq_true, hasName_iff, ← nameOf_of_lt (ne_of_lt hlt)]
    exact hfirst.2.2 e he x mem_cons_self hx
  have hself : hasName (s.mem x) (nameLen (s.mem x)) (s.mem x) = true := by
    rw [hasName_iff, nameOf_of_lt (ne_of_lt hlt)]
  -- the string replaces itself
  have hput : envPut s x (nameLen (s.mem x)) true m.environ =
      some ({ s with environ := some s.entries }, some x) := by
    have hf : s.entries.findIdx? (fun e => hasName (s.mem x) (nameLen (s.mem x)) (s.mem e)) =
        some l₁.length := by
      rw [hl, findIdx?_append, findIdx?_eq_none_iff.mpr hno, findIdx?_cons, hself]
      simp
    simp only [envPut, hf, if_true, some.injEq, mk.injEq]
    rw [hl]
    simp
  simp only [step] at hs
  split_ifs at hs with hv
  cases hs
  rintro ⟨hcover, -, -⟩
  have heq : (putenv s x m).1 = (releaseAll { s with environ := some s.entries } [x]).1 := by
    simp only [putenv, if_neg (ne_of_lt hlt), if_neg hne, hput]
    rfl
  have hent : x ∈ (putenv s x m).1.entries := by
    rw [heq, releaseAll_eq]
    exact hg.mem_entries x hx
  have hT' : Tracked { s with environ := some s.entries } (trace h) := hT.congr rfl rfl
  rcases hcover x hent with ⟨k, rfl⟩ | ho
  · obtain ⟨a, ha⟩ := hT.isHeap _ hx
    cases ha
  · rw [heq, (hT'.releaseAll [x]).2] at ho
    exact ho.1 (mem_singleton_self x)

/-- **No entry is a released string.** Over every run of calls from the start of the process, the
environment refers to no released string exactly when `putenv` is never given an owned string. -/
theorem sound_iff_notOwned {s : State} (hs : Initial s) (cs : List Call) :
    Always step Sound s [] cs ↔ Along step NotOwned s [] cs := by
  refine always_iff_along (I := fun s h => Tracked s (trace h) ∧ Good s) ?_ ?_ ?_ ?_
  · rintro s h c s' d ⟨hT, hg⟩ - hstep hsound
    refine good_step hT hg hstep ?_
    rintro x m rfl hx
    exact not_sound_putenv hT hg hstep hx hsound
  · rintro s h c s' d ⟨hT, hg⟩ - hstep
    constructor
    · rintro hsound x m rfl hx
      exact not_sound_putenv hT hg hstep hx hsound
    · intro hc
      obtain ⟨hT', hg'⟩ := good_step hT hg hstep hc
      exact hg'.sound hT'
  · exact ⟨.initial hs, .initial hs⟩
  · exact Good.sound (Tracked.initial hs) (Good.initial hs)

/-- A process with the environment `A=1`. -/
def oneEntry : State :=
  { mem := fun _ => [65, 61, 49], environ := some [.user 0], ours := false, envCap := 0, owned := []
    ownedCap := 0, heap := [] }

theorem initial_oneEntry : Initial oneEntry := ⟨rfl, rfl, by simp [oneEntry, State.entries]⟩

/-- The condition is met when `putenv` is given a string of the program. -/
theorem notOwned_user : Along step NotOwned oneEntry []
    [.setenv [66] [50] true { str := some 0 }, .putenv (.user 1) {}, .unsetenv [66]] := by
  rintro s o ⟨⟩
  refine ⟨fun _ _ e => by simp at e, ?_⟩
  rintro s o ⟨⟩
  refine ⟨?_, ?_⟩
  · rintro x m e
    obtain rfl : Str.user 1 = x := (Call.putenv.inj e).1
    decide
  · rintro s o ⟨⟩
    exact ⟨fun _ _ e => by simp at e, trivial⟩

theorem sound_iff_notOwned_user : Always step Sound oneEntry []
    [.setenv [66] [50] true { str := some 0 }, .putenv (.user 1) {}, .unsetenv [66]] :=
  (sound_iff_notOwned initial_oneEntry _).mpr notOwned_user

/-- After `setenv("B", "2", 1)`, `putenv` of the new entry of `environ` releases it where it is. -/
theorem putenv_of_entry_dangles : ¬ Always step Sound oneEntry []
    [.setenv [66] [50] true { str := some 0 }, .putenv (.heap 0) {}] := by
  rintro ⟨-, h⟩
  obtain ⟨-, h⟩ := h _ _ rfl
  obtain ⟨hcover, -, -⟩ := h _ _ rfl
  rcases hcover (.heap 0) (by decide) with ⟨k, hk⟩ | ho
  · cases hk
  · exact absurd ho (by decide)

end Citadel.Env
