import Citadel.Resolv.Answer

/-!
# The records of an answer

* `records`: what the records of a message say: the owner, the type and class, and the data, which
  for a `CNAME` record is a name.
* `parseAnswer_eq`: the aliases and addresses that `parse_answer` finds, in terms of the records.
* `parseAnswer_perm`: their order does not matter.
-/

namespace Citadel.Resolv

open List UInt8

inductive Data where
  | target (name : List UInt8)
  | raw (bytes : List UInt8)
deriving DecidableEq, Repr

structure Record where
  owner : List UInt8
  type : ℕ
  cls : ℕ
  data : Data
deriving DecidableEq, Repr

/-- The record at an offset, and the offset behind it. -/
def recordAt (m : List UInt8) (off : ℕ) : Parse (Record × ℕ) := do
  let r ← getName m off
  let type ← be16 m r.1
  let cls ← be16 m (r.1 + 2)
  let rdlen ← be16 m (r.1 + 8)
  if r.1 + 10 + rdlen > m.length then .error .fail
  else if type = 5 then do
    let cn ← getName m (r.1 + 10)
    .ok (⟨r.2, type, cls, .target cn.2⟩, r.1 + 10 + rdlen)
  else do
    let l ← bytes m rdlen (r.1 + 10)
    .ok (⟨r.2, type, cls, .raw l⟩, r.1 + 10 + rdlen)

/-- So many records from an offset on. -/
def recordsFrom (m : List UInt8) : ℕ → ℕ → Parse (List Record)
  | 0, _ => .ok []
  | n + 1, off => do
    let x ← recordAt m off
    let xs ← recordsFrom m n x.2
    .ok (x.1 :: xs)

def records (m : List UInt8) : Parse (UInt8 × List Record) :=
  if m.length < 12 then .error .fail
  else do
    let flags ← rd m 3
    let qd ← be16 m 4
    let an ← be16 m 6
    let off ← skipQuestions m qd 12
    let xs ← recordsFrom m an off
    .ok (flags &&& 15, xs)

/-! ## What the records say -/

/-- The name that a record makes an alias for `t`. -/
def aliasFor (t : List UInt8) (x : Record) : Option (List UInt8) :=
  if x.type = 5 ∧ x.cls = 1 ∧ eqName x.owner t then
    match x.data with
    | .target cn => some cn
    | .raw _ => none
  else none

/-- The name after at most so many aliases. -/
def aliasEnd (xs : List Record) : ℕ → List UInt8 → List UInt8
  | 0, t => t
  | n + 1, t =>
    match xs.findSome? (aliasFor t) with
    | none => t
    | some cn => aliasEnd xs n cn

/-- The address that a record gives for `t`. -/
def addressFor (qtype : ℕ) (t : List UInt8) (x : Record) : Option DnsAddr :=
  if eqName x.owner t ∧ x.cls = 1 ∧ x.type = qtype then
    match x.data with
    | .target _ => none
    | .raw l =>
      if qtype = T_A ∧ l.length = 4 then some ⟨.inet, l⟩
      else if qtype = T_AAAA ∧ l.length = 16 then some ⟨.inet6, l⟩
      else none
  else none

/-! ## Reading them -/

theorem bind_eq_ok {α β : Type} {x : Parse α} {f : α → Parse β} {b : β} :
    (x >>= f) = .ok b ↔ ∃ a, x = .ok a ∧ f a = .ok b := by
  cases x with
  | ok a => exact ⟨fun h => ⟨a, rfl, h⟩, fun ⟨a', ha, h⟩ => by cases ha; exact h⟩
  | error e => exact ⟨nofun, fun ⟨a, ha, _⟩ => nomatch ha⟩

variable {m : List UInt8} {off : ℕ}

/-- What `parse_answer` reads of a record, the name ends at `o`. -/
structure ReadsAt (m : List UInt8) (off : ℕ) (x : Record) (o rdlen : ℕ) : Prop where
  name : getName m off = .ok (o, x.owner)
  type : be16 m o = .ok x.type
  cls : be16 m (o + 2) = .ok x.cls
  size : be16 m (o + 8) = .ok rdlen
  inside : o + 10 + rdlen ≤ m.length
  data : (x.type = 5 ∧ ∃ cn e, x.data = .target cn ∧ getName m (o + 10) = .ok (e, cn)) ∨
    (x.type ≠ 5 ∧ ∃ l, x.data = .raw l ∧ bytes m rdlen (o + 10) = .ok l)

variable {x : Record} {offs : List ℕ} {xs ys : List Record} {qtype : ℕ} {t : List UInt8} {c : UInt8}

theorem recordAt_reads {e : ℕ} (h : recordAt m off = .ok (x, e)) :
    ∃ o rdlen, ReadsAt m off x o rdlen ∧ e = o + 10 + rdlen := by
  obtain ⟨⟨o, owner⟩, hname, h⟩ := bind_eq_ok.mp h
  obtain ⟨type, htype, h⟩ := bind_eq_ok.mp h
  obtain ⟨cls, hcls, h⟩ := bind_eq_ok.mp h
  obtain ⟨rdlen, hrdlen, h⟩ := bind_eq_ok.mp h
  by_cases hin : o + 10 + rdlen > m.length
  · rw [if_pos hin] at h
    cases h
  rw [if_neg hin] at h
  by_cases h5 : type = 5
  · rw [if_pos h5] at h
    obtain ⟨⟨e', cn⟩, hcn, h⟩ := bind_eq_ok.mp h
    cases h
    exact ⟨o, rdlen, ⟨hname, htype, hcls, hrdlen, not_lt.mp hin, .inl ⟨h5, cn, e', rfl, hcn⟩⟩,
      rfl⟩
  · rw [if_neg h5] at h
    obtain ⟨l, hl, h⟩ := bind_eq_ok.mp h
    cases h
    exact ⟨o, rdlen, ⟨hname, htype, hcls, hrdlen, not_lt.mp hin, .inr ⟨h5, l, rfl, hl⟩⟩, rfl⟩

/-- A record that can be read at an offset. -/
def Reads (m : List UInt8) (off : ℕ) (x : Record) : Prop := ∃ o rdlen, ReadsAt m off x o rdlen

/-- All records are remembered if there are at most 64. -/
theorem recordOffsets_eq : ∀ {n off : ℕ} {xs : List Record} (roff : List ℕ),
    recordsFrom m n off = .ok xs → roff.length + xs.length ≤ 64 →
    ∃ offs, recordOffsets m n off roff = .ok (roff ++ offs) ∧ List.Forall₂ (Reads m) offs xs
  | 0, _, _, roff, h, _ => by
    cases h
    exact ⟨[], by rw [recordOffsets, append_nil], .nil⟩
  | n + 1, off, _, roff, h, hle => by
    obtain ⟨⟨x, e⟩, hx, h⟩ := bind_eq_ok.mp h
    obtain ⟨xs, hxs, h⟩ := bind_eq_ok.mp h
    cases h
    obtain ⟨o, rdlen, hR, rfl⟩ := recordAt_reads hx
    rw [length_cons] at hle
    obtain ⟨offs, hoffs, hF⟩ := recordOffsets_eq (roff ++ [off]) hxs (by
      rw [length_append, length_singleton]
      omega)
    refine ⟨off :: offs, ?_, .cons ⟨o, rdlen, hR⟩ hF⟩
    have hin := hR.inside
    rw [recordOffsets, if_neg (by omega), hR.name]
    change (if o + 10 > m.length then _ else _) = _
    rw [if_neg (by omega), hR.size]
    change (if o + 10 + rdlen > m.length then _ else _) = _
    rw [if_neg (by omega), hoffs, append_assoc]
    rfl

theorem cnameOf_eq (t : List UInt8) (hF : List.Forall₂ (Reads m) offs xs) :
    cnameOf m t offs = .ok (xs.findSome? (aliasFor t)) := by
  induction hF with
  | nil => rfl
  | @cons off x offs xs hR hF ih =>
    obtain ⟨o, rdlen, hR⟩ := hR
    rw [cnameOf, hR.name]
    change (be16 m o >>= fun type => be16 m (o + 2) >>= fun cls => _) = _
    rw [hR.type, hR.cls]
    change (if x.type = 5 ∧ x.cls = 1 ∧ eqName x.owner t = true then _ else _) = _
    rw [findSome?_cons]
    by_cases hx : x.type = 5 ∧ x.cls = 1 ∧ eqName x.owner t = true
    · rw [if_pos hx]
      rcases hR.data with ⟨-, cn, e, hd, hcn⟩ | ⟨h5, -⟩
      · rw [hcn, aliasFor, if_pos hx, hd]
        rfl
      · exact absurd hx.1 h5
    · rw [if_neg hx, aliasFor, if_neg hx]
      exact ih

theorem followCnames_eq (hF : List.Forall₂ (Reads m) offs xs) :
    ∀ (n hops : ℕ) (t : List UInt8), ∃ hops', followCnames m offs n hops t =
      .ok (hops', aliasEnd xs n t)
  | 0, hops, _ => ⟨hops, rfl⟩
  | n + 1, hops, t => by
    rw [followCnames, cnameOf_eq t hF, aliasEnd]
    cases hc : xs.findSome? (aliasFor t) with
    | none => exact ⟨hops, rfl⟩
    | some cn => exact followCnames_eq hF n (hops + 1) cn

/-- One record in the last scan: an address for the name is kept while there is room. -/
theorem collect_cons (hq : qtype = T_A ∨ qtype = T_AAAA) (t : List UInt8) (max : ℕ)
    (ptr : Bool) (hR : Reads m off x) (offs : List ℕ) (out : List DnsAddr) :
    collect m t qtype max ptr (off :: offs) out = match addressFor qtype t x with
      | some a =>
        if out.length < max then collect m t qtype max ptr offs (out ++ [a])
        else collect m t qtype max ptr offs out
      | none => collect m t qtype max ptr offs out := by
  obtain ⟨o, rdlen, hR⟩ := hR
  rw [collect, hR.name]
  change (if eqName x.owner t = true then _ else _) = _
  by_cases ht : eqName x.owner t = true
  swap
  · rw [if_neg ht, addressFor, if_neg fun h => ht h.1]
  rw [if_pos ht, hR.type, hR.cls, hR.size]
  change (if x.cls ≠ 1 ∨ x.type ≠ qtype then _ else _) = _
  by_cases hx : x.cls = 1 ∧ x.type = qtype
  swap
  · rw [if_pos (by tauto), addressFor, if_neg fun h => hx h.2]
  rw [if_neg (by tauto), addressFor, if_pos (And.intro ht hx)]
  rcases hR.data with ⟨h5, -⟩ | ⟨-, l, hd, hl⟩
  · rcases hq with rfl | rfl
    · cases hx.2.symm.trans h5
    · cases hx.2.symm.trans h5
  obtain rfl := (safe_bytes rdlen (o + 10) hR.inside).ok hl
  have hA : T_A ≠ T_AAAA := by decide
  have hptr : ¬ (qtype = T_PTR ∧ ptr = true) := by
    rcases hq with rfl | rfl
    · exact fun h => absurd h.1 (by decide)
    · exact fun h => absurd h.1 (by decide)
  rw [hd, if_neg hptr]
  rcases hq with rfl | rfl
  · simp only [hA, false_and, true_and, if_false]
    by_cases h4 : l.length = 4
    · rw [h4] at hl
      simp only [h4, if_true, true_and, hl]
      rfl
    · simp only [h4, false_and, if_false]
  · simp only [Ne.symm hA, false_and, true_and, if_false]
    by_cases h16 : l.length = 16
    · rw [h16] at hl
      simp only [h16, if_true, true_and, hl]
      rfl
    · simp only [h16, false_and, if_false]

theorem collect_eq (hq : qtype = T_A ∨ qtype = T_AAAA) (t : List UInt8) (max : ℕ)
    (ptr : Bool) (hF : List.Forall₂ (Reads m) offs xs) :
    ∀ out : List DnsAddr, out.length ≤ max → collect m t qtype max ptr offs out =
      .ok (out ++ (xs.filterMap (addressFor qtype t)).take (max - out.length), none) := by
  induction hF with
  | nil => exact fun out _ => by rw [collect, filterMap_nil, take_nil, append_nil]
  | @cons off x offs xs hR hF ih =>
    intro out hout
    rw [collect_cons hq t max ptr hR, filterMap_cons]
    cases hx : addressFor qtype t x with
    | none => exact ih out hout
    | some a =>
      by_cases hroom : out.length < max
      · obtain ⟨k, hk⟩ : ∃ k, max - out.length = k + 1 := ⟨max - out.length - 1, by omega⟩
        have hlen : (out ++ [a]).length = out.length + 1 := length_append
        have hk' : max - (out ++ [a]).length = k := by omega
        refine (if_pos hroom).trans ((ih _ (by omega)).trans ?_)
        rw [hk, hk', take_succ_cons, append_assoc, singleton_append]
      · refine (if_neg hroom).trans ((ih out hout).trans ?_)
        rw [Nat.sub_eq_zero_of_le (not_lt.mp hroom), take_zero, take_zero]

/-! ## The answer in terms of the records -/

theorem records_reads {r : UInt8} (h : records m = .ok (r, xs)) :
    ¬ m.length < 12 ∧ ∃ flags qd an off, rd m 3 = .ok flags ∧ r = flags &&& 15 ∧ be16 m 4 = .ok qd ∧
      be16 m 6 = .ok an ∧ skipQuestions m qd 12 = .ok off ∧ recordsFrom m an off = .ok xs := by
  rw [records] at h
  by_cases h12 : m.length < 12
  · rw [if_pos h12] at h
    cases h
  rw [if_neg h12] at h
  obtain ⟨flags, hflags, h⟩ := bind_eq_ok.mp h
  obtain ⟨qd, hqd, h⟩ := bind_eq_ok.mp h
  obtain ⟨an, han, h⟩ := bind_eq_ok.mp h
  obtain ⟨off, hoff, h⟩ := bind_eq_ok.mp h
  obtain ⟨xs', hxs, h⟩ := bind_eq_ok.mp h
  cases h
  exact ⟨h12, flags, qd, an, off, hflags, rfl, hqd, han, hoff, hxs⟩

/-- **What `parse_answer` reports** for an address query: the name at the end of the aliases, at
most 16 of them, and its first addresses. -/
theorem parseAnswer_eq (h : records m = .ok (0, xs)) (hlen : xs.length ≤ 64)
    (hq : qtype = T_A ∨ qtype = T_AAAA) (qname : List UInt8) (max : ℕ) (ptr : Bool) :
    ∃ a, parseAnswer m qname qtype max ptr = .ok (some a) ∧ a.canon = aliasEnd xs 16 qname ∧
      a.addrs = (xs.filterMap (addressFor qtype (aliasEnd xs 16 qname))).take max := by
  obtain ⟨h12, flags, qd, an, off, hflags, h0, hqd, han, hoff, hxs⟩ := records_reads h
  obtain ⟨offs, hoffs, hF⟩ := recordOffsets_eq [] hxs ((Nat.zero_add _).trans_le hlen)
  obtain ⟨hops, hwalk⟩ := followCnames_eq hF 16 0 qname
  have hcollect := collect_eq hq (aliasEnd xs 16 qname) max ptr hF [] (Nat.zero_le _)
  rw [parseAnswer, if_neg h12, hflags]
  change ∃ a, (if flags &&& 15 = 3 then _ else if flags &&& 15 ≠ 0 then _ else _) = _ ∧ _
  rw [← h0, if_neg (by decide), if_neg (by decide), hqd, han]
  change ∃ a, (skipQuestions m qd 12 >>= fun off =>
    recordOffsets m an off [] >>= fun roff => _) = _ ∧ _
  rw [hoff]
  change ∃ a, (recordOffsets m an off [] >>= fun roff => _) = _ ∧ _
  rw [hoffs]
  change ∃ a, (followCnames m offs 16 0 qname >>= fun walk => _) = _ ∧ _
  rw [hwalk]
  change ∃ a, (collect m (aliasEnd xs 16 qname) qtype max ptr offs [] >>= fun r => _) = _ ∧ _
  rw [hcollect]
  exact ⟨_, rfl, rfl, rfl⟩

/-! ## The order of the records -/

/-- The `CNAME` records of one owner agree; in particular there may be one at most. -/
def OneAlias (xs : List Record) : Prop :=
  ∀ x ∈ xs, ∀ y ∈ xs, x.type = 5 → y.type = 5 → eqName x.owner y.owner → x.data = y.data

theorem aliasFor_eq_some {cn : List UInt8} (h : aliasFor t x = some cn) :
    x.type = 5 ∧ eqName x.owner t = true ∧ x.data = .target cn := by
  rw [aliasFor] at h
  split_ifs at h with hx
  refine ⟨hx.1, hx.2.2, ?_⟩
  cases hd : x.data with
  | target n =>
    rw [hd] at h
    rw [Option.some.inj h]
  | raw l =>
    rw [hd] at h
    cases h

theorem OneAlias.agree (hxs : OneAlias xs) {y : Record} (hx : x ∈ xs)
    (hy : y ∈ xs) {a b : List UInt8} (ha : aliasFor t x = some a) (hb : aliasFor t y = some b) :
    a = b := by
  obtain ⟨hx5, hxt, hxd⟩ := aliasFor_eq_some ha
  obtain ⟨hy5, hyt, hyd⟩ := aliasFor_eq_some hb
  have howner : eqName x.owner y.owner = true :=
    decide_eq_true ((of_decide_eq_true hxt).trans (of_decide_eq_true hyt).symm)
  have hd := hxs x hx y hy hx5 hy5 howner
  rw [hxd, hyd] at hd
  exact Data.target.inj hd

theorem OneAlias.findSome_perm (hxs : OneAlias xs) (h : xs.Perm ys)
    (t : List UInt8) : xs.findSome? (aliasFor t) = ys.findSome? (aliasFor t) := by
  cases hx : xs.findSome? (aliasFor t) with
  | none =>
    refine (findSome?_eq_none_iff.mpr fun y hy => ?_).symm
    exact findSome?_eq_none_iff.mp hx y (h.mem_iff.mpr hy)
  | some a =>
    obtain ⟨x, hxm, hxa⟩ := exists_of_findSome?_eq_some hx
    cases hy : ys.findSome? (aliasFor t) with
    | none => cases hxa.symm.trans (findSome?_eq_none_iff.mp hy x (h.mem_iff.mp hxm))
    | some b =>
      obtain ⟨y, hym, hyb⟩ := exists_of_findSome?_eq_some hy
      rw [hxs.agree hxm (h.mem_iff.mpr hym) hxa hyb]

theorem OneAlias.aliasEnd_perm (hxs : OneAlias xs) (h : xs.Perm ys) :
    ∀ (n : ℕ) (t : List UInt8), aliasEnd xs n t = aliasEnd ys n t
  | 0, _ => rfl
  | n + 1, t => by
    rw [aliasEnd, aliasEnd, ← hxs.findSome_perm h t]
    cases xs.findSome? (aliasFor t) with
    | none => rfl
    | some cn => exact aliasEnd_perm hxs h n cn

/-- Two calls with the same report, up to the order of the addresses. -/
inductive SameReport : Parse (Option Answer) → Parse (Option Answer) → Prop
  | failed : SameReport (.error .fail) (.error .fail)
  | nxdomain : SameReport (.ok none) (.ok none)
  | found {a b : Answer} : a.canon = b.canon → (∀ x, x ∈ a.addrs ↔ x ∈ b.addrs) →
      SameReport (.ok (some a)) (.ok (some b))

theorem parseAnswer_rcode {r : UInt8} (h : records m = .ok (r, xs)) (hr : r ≠ 0)
    (qname : List UInt8) (qtype max : ℕ) (ptr : Bool) :
    parseAnswer m qname qtype max ptr = if r = 3 then .ok none else .error .fail := by
  obtain ⟨h12, flags, -, -, -, hflags, rfl, -⟩ := records_reads h
  rw [parseAnswer, if_neg h12, hflags]
  change (if flags &&& 15 = 3 then _ else if flags &&& 15 ≠ 0 then _ else _) = _
  rw [if_pos hr]

/-- **The order of the records does not matter.** -/
theorem parseAnswer_perm {m' : List UInt8} {r : UInt8} {xs ys : List Record}
    (hm : records m = .ok (r, xs)) (hm' : records m' = .ok (r, ys)) (hperm : xs.Perm ys)
    (hlen : xs.length ≤ 64) (hone : OneAlias xs) {qtype : ℕ} (hq : qtype = T_A ∨ qtype = T_AAAA)
    {qname : List UInt8} {max : ℕ}
    (hmax : (xs.filterMap (addressFor qtype (aliasEnd xs 16 qname))).length ≤ max) (ptr : Bool) :
    SameReport (parseAnswer m qname qtype max ptr) (parseAnswer m' qname qtype max ptr) ∧
      (r = 0 → ∃ a, parseAnswer m qname qtype max ptr = .ok (some a)) := by
  by_cases hr : r = 0
  · subst hr
    obtain ⟨a, ha, hac, haa⟩ := parseAnswer_eq hm hlen hq qname max ptr
    obtain ⟨b, hb, hbc, hba⟩ := parseAnswer_eq hm' (hperm.length_eq ▸ hlen) hq qname max ptr
    have haddrs := hperm.filterMap (addressFor qtype (aliasEnd xs 16 qname))
    rw [← hone.aliasEnd_perm hperm] at hbc hba
    rw [take_of_length_le hmax] at haa
    rw [take_of_length_le (haddrs.length_eq ▸ hmax)] at hba
    rw [ha, hb]
    refine ⟨.found (hac.trans hbc.symm) fun x => ?_, fun _ => ⟨a, rfl⟩⟩
    rw [haa, hba]
    exact haddrs.mem_iff
  · rw [parseAnswer_rcode hm hr, parseAnswer_rcode hm' hr]
    refine ⟨?_, fun h => absurd h hr⟩
    by_cases h3 : r = 3
    · rw [if_pos h3]
      exact .nxdomain
    · rw [if_neg h3]
      exact .failed

/-- The address in front of the alias that leads to it, or behind it with a compressed name. -/
def aliasAnswer (first : Bool) : List UInt8 :=
  [0, 7, 129, 128, 0, 0, 0, 2, 0, 0, 0, 0] ++
    if first then
      [1, 98, 0, 0, 1, 0, 1, 0, 0, 0, 0, 0, 4, 10, 0, 0, 1] ++
      [1, 97, 0, 0, 5, 0, 1, 0, 0, 0, 0, 0, 3, 1, 98, 0]
    else
      [1, 97, 0, 0, 5, 0, 1, 0, 0, 0, 0, 0, 3, 1, 98, 0] ++
      [192, 25, 0, 1, 0, 1, 0, 0, 0, 0, 0, 4, 10, 0, 0, 1]

def aliasRecords (first : Bool) : List Record :=
  if first then [⟨[98], 1, 1, .raw [10, 0, 0, 1]⟩, ⟨[97], 5, 1, .target [98]⟩]
  else [⟨[97], 5, 1, .target [98]⟩, ⟨[98], 1, 1, .raw [10, 0, 0, 1]⟩]

theorem parseAnswer_perm_alias :
    records (aliasAnswer true) = .ok (0, aliasRecords true) ∧
    records (aliasAnswer false) = .ok (0, aliasRecords false) ∧
    SameReport (parseAnswer (aliasAnswer true) [97] T_A 1 false)
      (parseAnswer (aliasAnswer false) [97] T_A 1 false) ∧
    ((0 : UInt8) = 0 → ∃ a, parseAnswer (aliasAnswer true) [97] T_A 1 false = .ok (some a)) :=
  have hm : records (aliasAnswer true) = .ok (0, aliasRecords true) := by decide
  have hm' : records (aliasAnswer false) = .ok (0, aliasRecords false) := by decide
  ⟨hm, hm', parseAnswer_perm hm hm' (List.Perm.swap _ _ []) (by decide) (by unfold OneAlias; decide)
    (.inl rfl) (by decide) false⟩

/-! ## Chains that are too long -/

/-- A name without an alias, reached by aliases. -/
def EndsAt (xs : List Record) (q t : List UInt8) : Prop :=
  ∃ n, aliasEnd xs n q = t ∧ xs.findSome? (aliasFor t) = none

theorem aliasEnd_of_none (h : xs.findSome? (aliasFor t) = none) : ∀ n, aliasEnd xs n t = t
  | 0 => rfl
  | n + 1 => by rw [aliasEnd, h]

theorem aliasEnd_add (xs : List Record) (k : ℕ) : ∀ (n : ℕ) (t : List UInt8),
    aliasEnd xs (n + k) t = aliasEnd xs k (aliasEnd xs n t)
  | 0, t => by rw [Nat.zero_add, aliasEnd]
  | n + 1, t => by
    rw [Nat.add_right_comm, aliasEnd, aliasEnd]
    cases h : xs.findSome? (aliasFor t) with
    | none => exact (aliasEnd_of_none h k).symm
    | some cn => exact aliasEnd_add xs k n cn

theorem EndsAt.unique {q u : List UInt8} (ht : EndsAt xs q t) (hu : EndsAt xs q u) : t = u := by
  obtain ⟨n, rfl, hn⟩ := ht
  obtain ⟨k, rfl, hk⟩ := hu
  rw [← aliasEnd_of_none hn k, ← aliasEnd_of_none hk n, ← aliasEnd_add, ← aliasEnd_add,
    Nat.add_comm]

/-- The names `a`, `b` and so on, each an alias for the next up to `r`, and two addresses of `q`. -/
def chainAnswer (x y : UInt8) : List UInt8 :=
  [0, 7, 129, 128, 0, 0, 0, 19, 0, 0, 0, 0] ++
    (range 17).flatMap (fun i =>
      [1, 97 + ofNat i, 0, 0, 5, 0, 1, 0, 0, 0, 0, 0, 3, 1, 98 + ofNat i, 0]) ++
    [1, 113, 0, 0, 1, 0, 1, 0, 0, 0, 0, 0, 4, 10, 0, 0, x] ++
    [1, 113, 0, 0, 1, 0, 1, 0, 0, 0, 0, 0, 4, 10, 0, 0, y]

def chainRecords (x y : UInt8) : List Record :=
  (range 17).map (fun i =>
      ⟨[97 + ofNat i], 5, 1, .target [98 + ofNat i]⟩) ++
    [⟨[113], 1, 1, .raw [10, 0, 0, x]⟩, ⟨[113], 1, 1, .raw [10, 0, 0, y]⟩]

theorem not_sameReport {a b : Answer} {x y : DnsAddr} (ha : a.addrs = [x]) (hb : b.addrs = [y])
    (hxy : x ≠ y) : ¬ SameReport (.ok (some a)) (.ok (some b)) := by
  intro hs
  cases hs with
  | found _ hmem =>
    have hx : x ∈ b.addrs := (hmem x).mp (ha ▸ mem_singleton_self x)
    rw [hb] at hx
    exact hxy (mem_singleton.mp hx)

/-- A name at which the search for aliases gives up has two addresses, and there is room for one. -/
theorem parseAnswer_long_chain :
    ∃ m m' xs ys, records m = .ok (0, xs) ∧ records m' = .ok (0, ys) ∧ xs.Perm ys ∧ xs.length ≤ 64 ∧
      OneAlias xs ∧ EndsAt xs [97] [114] ∧
      (∀ t, EndsAt xs [97] t → (xs.filterMap (addressFor T_A t)).length ≤ 1) ∧
      ¬ SameReport (parseAnswer m [97] T_A 1 false) (parseAnswer m' [97] T_A 1 false) := by
  have hm : records (chainAnswer 1 2) = .ok (0, chainRecords 1 2) := by decide +kernel
  have hm' : records (chainAnswer 2 1) = .ok (0, chainRecords 2 1) := by decide +kernel
  have hend : EndsAt (chainRecords 1 2) [97] [114] := ⟨17, by decide, by decide⟩
  refine ⟨_, _, _, _, hm, hm', (List.Perm.swap _ _ []).append_left _, by decide, ?_, hend, ?_, ?_⟩
  · unfold OneAlias
    decide
  · intro t ht
    rw [← hend.unique ht]
    decide
  · obtain ⟨a, ha, -, haa⟩ := parseAnswer_eq hm (by decide) (.inl rfl) [97] 1 false
    obtain ⟨b, hb, -, hba⟩ := parseAnswer_eq hm' (by decide) (.inl rfl) [97] 1 false
    rw [ha, hb]
    refine not_sameReport (x := ⟨.inet, [10, 0, 0, 1]⟩) (y := ⟨.inet, [10, 0, 0, 2]⟩) ?_ ?_
      (by decide)
    · rw [haa]
      decide
    · rw [hba]
      decide

end Citadel.Resolv
