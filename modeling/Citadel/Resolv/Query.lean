import Citadel.Resolv.Exchange
import Mathlib.Data.List.GetD
import Mathlib.Data.List.TakeWhile

/-!
# Queries and the answers that match them

* `mkquery_spec`: a query is the header, the labels of the name, and the type and class.
* `answers_of_questionMatches`: a message that `question_matches` accepts for such a query carries
  its identifier and the response bit, and has one question: the same name up to the case of
  letters, with the same type and class.
* `tcpQuery_spec`: what `tcp_query` leaves in the answer buffer is what the server sent.
-/

namespace Citadel.Resolv

open Citadel.Lib.Window List Option

/-! ## The name on the wire -/

/-- The labels of a dotted name; one dot may follow the last label. -/
inductive Spells : List UInt8 → List (List UInt8) → Prop
  | last {l : List UInt8} (hl : l ≠ []) (hd : dot ∉ l) : Spells l [l]
  | rooted {l : List UInt8} (hl : l ≠ []) (hd : dot ∉ l) : Spells (l ++ [dot]) [l]
  | cons {l p : List UInt8} {ls : List (List UInt8)} (hl : l ≠ []) (hd : dot ∉ l)
      (h : Spells p ls) : Spells (l ++ dot :: p) (l :: ls)

/-- The labels as a message has them, each behind its length. -/
def wire (labels : List (List UInt8)) : List UInt8 := labels.flatMap fun l => l.length.toUInt8 :: l

/-- The labels fit the length byte. -/
def ShortLabels (labels : List (List UInt8)) : Prop := ∀ l ∈ labels, l.length ≤ 63

theorem takeWhile_split (p : List UInt8) : p = p.takeWhile (· ≠ dot) ∨
    ∃ rest, p = p.takeWhile (· ≠ dot) ++ dot :: rest := by
  induction p with
  | nil => exact .inl rfl
  | cons c p ih =>
    by_cases hc : c = dot
    · right
      exact ⟨p, by simp [hc]⟩
    · rw [takeWhile_cons_of_pos (by simpa using hc)]
      rcases ih with ih | ⟨rest, ih⟩
      · left; rw [← ih]
      · right; exact ⟨rest, by rw [cons_append, ← ih]⟩

theorem dot_not_mem_takeWhile (p : List UInt8) : dot ∉ p.takeWhile (· ≠ dot) := by
  intro h
  have := mem_takeWhile_imp h
  simp at this

theorem mkqueryLoop_spec : ∀ (fuel : ℕ) (p q q' : List UInt8), mkqueryLoop fuel p q = some q' →
    p ≠ [] → ∃ labels, Spells p labels ∧ ShortLabels labels ∧ q' = q ++ wire labels
  | _, [], _, _, _, hp => absurd rfl hp
  | 0, _ :: _, _, _, h, _ => by cases h
  | fuel + 1, c :: p, q, q', h, _ => by
    simp only [mkqueryLoop] at h
    have hsplit := takeWhile_split (c :: p)
    have hdot := dot_not_mem_takeWhile (c :: p)
    generalize (c :: p).takeWhile (· ≠ dot) = label at h hsplit hdot
    by_cases hn : label.length = 0 ∨ label.length > 63 ∨ q.length + 1 + label.length > 12 + 254
    · rw [if_pos hn] at h
      cases h
    rw [if_neg hn] at h
    simp only [not_or, not_lt] at hn
    have hl : label ≠ [] := fun e => hn.1 (by rw [e]; rfl)
    have hshort : ShortLabels [label] := forall_mem_singleton.mpr hn.2.1
    rcases hsplit with e | ⟨rest, e⟩
    · -- the last label
      rw [e, drop_length] at h
      cases fuel with
      | zero | succ fuel =>
        simp only [List.head?_nil, reduceCtorEq, if_false, mkqueryLoop, some.injEq] at h
        exact ⟨[label], by rw [e]; exact .last hl hdot, hshort, by rw [← h]; simp [wire]⟩
    · rw [e, drop_left' rfl] at h
      simp only [List.head?_cons, if_true, tail_cons] at h
      cases rest with
      | nil =>
        cases fuel with
        | zero | succ fuel =>
          simp only [mkqueryLoop, some.injEq] at h
          exact ⟨[label], by rw [e]; exact .rooted hl hdot, hshort, by rw [← h]; simp [wire]⟩
      | cons d rest =>
        obtain ⟨labels, h1, h2, h3⟩ := mkqueryLoop_spec fuel (d :: rest) _ q' h (by simp)
        refine ⟨label :: labels, ?_, ?_, ?_⟩
        · rw [e]; exact .cons hl hdot h1
        · exact forall_mem_cons.mpr ⟨hn.2.1, h2⟩
        · rw [h3]; simp [wire]

variable {type : ℕ} {S : List UInt8} {t : Tcp}

theorem mkquery_spec {name q : List UInt8} {id : ℕ} (h : mkquery name type id = some q) :
    ∃ labels, Spells name labels ∧ ShortLabels labels ∧
      q = header id ++ (wire labels ++ trailer type) := by
  unfold mkquery at h
  split_ifs at h with hne
  obtain ⟨q', hq', rfl⟩ := map_eq_some_iff.mp h
  obtain ⟨labels, h1, h2, rfl⟩ := mkqueryLoop_spec _ _ _ _ hq' hne
  exact ⟨labels, h1, h2, append_assoc _ _ _⟩

/-! ## Comparison without regard to case -/

theorem eq_of_lower_eq {x y : UInt8} (hy : y < 65) (h : lower x = lower y) : x = y := by
  have hy' : lower y = y := by
    unfold lower
    rw [if_neg]
    rintro ⟨h1, -⟩
    exact UInt8.not_lt.mpr h1 hy
  rw [hy'] at h
  unfold lower at h
  split_ifs at h with hx
  · obtain ⟨h1, h2⟩ := hx
    rw [UInt8.le_iff_toNat_le] at h1 h2
    rw [UInt8.lt_iff_toNat_lt] at hy
    have := congrArg UInt8.toNat h
    rw [UInt8.toNat_add] at this
    simp at h1 h2 hy this
    omega
  · exact h

/-- Labels that are equal up to the case of letters. -/
def SameLabels (labels labels' : List (List UInt8)) : Prop :=
  List.Forall₂ (fun l l' => l.map lower = l'.map lower) labels labels'

theorem eq_of_map_lower {y : List UInt8} (hy : ∀ b ∈ y, b < 65) : ∀ {x : List UInt8},
    x.map lower = y.map lower → x = y := by
  induction y with
  | nil => intro x h; simpa using h
  | cons b y ih =>
    intro x h
    obtain ⟨a, x', rfl, h1, h2⟩ := map_eq_cons_iff.mp h
    rw [eq_of_lower_eq (hy b (by simp)) h1, ih (fun b hb => hy b (by simp [hb])) h2]

/-- A question that equals one on the wire up to case has the same labels up to case, and the same
type and class. -/
theorem question_of_map_lower (ht : ∀ b ∈ trailer type, b < 65) :
    ∀ {labels : List (List UInt8)} {x : List UInt8}, ShortLabels labels →
      x.map lower = (wire labels ++ trailer type).map lower →
      ∃ labels', SameLabels labels labels' ∧ x = wire labels' ++ trailer type
  | [], x, _, h => ⟨[], .nil, eq_of_map_lower ht h⟩
  | l :: ls, x, hs, h => by
    have hl : l.length ≤ 63 := hs l (by simp)
    have hlt : l.length.toUInt8 < 65 := by
      rw [UInt8.lt_iff_toNat_lt]
      simp
      omega
    rw [wire, flatMap_cons, ← wire, cons_append, cons_append, append_assoc,
      map_cons] at h
    obtain ⟨n, x', rfl, h1, h2⟩ := map_eq_cons_iff.mp h
    rw [map_append] at h2
    obtain ⟨l', x'', rfl, h3, h4⟩ := map_eq_append_iff.mp h2
    obtain ⟨ls', h5, rfl⟩ := question_of_map_lower ht (fun l hl => hs l (by simp [hl])) h4
    refine ⟨l' :: ls', .cons h3.symm h5, ?_⟩
    have hlen : l'.length = l.length := by simpa using congrArg List.length h3
    rw [eq_of_lower_eq hlt h1, ← hlen]
    simp [wire]

/-- The message `m` is a response to the query for `name`: it carries the identifier and the
response bit, and its one question asks for the same name, up to case, with the same type and class.
-/
structure Answers (name : List UInt8) (type id : ℕ) (m : List UInt8) : Prop where
  id : m.take 2 = [(id >>> 8).toUInt8, id.toUInt8]
  response : m.getD 2 0 &&& 0x80 ≠ 0
  single : (m.drop 4).take 2 = [0, 1]
  question : ∃ labels labels' rest, Spells name labels ∧ SameLabels labels labels' ∧
    m.drop 12 = wire labels' ++ trailer type ++ rest

theorem take_two {l : List UInt8} (h : 2 ≤ l.length) : l.take 2 = [l.getD 0 0, l.getD 1 0] := by
  match l, h with
  | a :: b :: l, _ => rfl

theorem answers_of_questionMatches {name q m : List UInt8} {id : ℕ}
    (hq : mkquery name type id = some q) (ht : ∀ b ∈ trailer type, b < 65)
    (h : questionMatches m q = true) : Answers name type id m := by
  obtain ⟨labels, hspell, hshort, rfl⟩ := mkquery_spec hq
  unfold questionMatches at h
  split_ifs at h with hne
  simp only [not_or, not_lt, Decidable.not_not, ne_eq] at hne
  obtain ⟨hlen, h0, h1, h2, h4, h5⟩ := hne
  set w := wire labels ++ trailer type
  have hhead : (header id).length = 12 := rfl
  rw [length_append, hhead] at h hlen
  -- the bytes behind the header agree up to case
  have hbody : ((m.drop 12).take w.length).map lower = w.map lower := by
    refine ext_getElem (by simp; omega) fun j hj hj' => ?_
    rw [length_map] at hj'
    have hall := all_eq_true.mp h (12 + j) (mem_range'_1.mpr ⟨by omega, by omega⟩)
    rw [getD_append_right _ _ _ _ (by omega), hhead, Nat.add_sub_cancel_left,
      getD_eq_getElem _ _ hj', getD_eq_getElem _ _ (by omega)] at hall
    simpa using hall
  obtain ⟨labels', hsame, hquestion⟩ := question_of_map_lower ht hshort hbody
  refine ⟨?_, h2, ?_, labels, labels', (m.drop 12).drop w.length, hspell, hsame, ?_⟩
  · rw [take_two (by omega), h0, h1]
    rfl
  · rw [take_two (by rw [length_drop]; omega)]
    simpa using ⟨h4, h5⟩
  · rw [← hquestion, take_append_drop]

/-! ## TCP -/

/-- What the loop of `tcp_query` has received of the stream `S`, while it reads the length and while
it reads the message. -/
def Received (S : List UInt8) (t : Tcp) : Prop :=
  match t.want with
  | none => t.got < 2 ∧ t.got ≤ S.length ∧ t.lenbuf = S.take t.got ∧ t.stream = S.drop t.got
  | some want => want = beLength (S.take 2) ∧ 12 ≤ want ∧ t.got < want ∧ 2 + t.got ≤ S.length ∧
      t.stream = S.drop (2 + t.got) ∧ window t.a 0 t.got = (S.drop 2).take t.got

theorem exists_take_eq {l : List UInt8} {k : ℕ} (h : l.take k ≠ []) :
    ∃ j, l.take k = l.take j ∧ 0 < j ∧ j ≤ k ∧ j ≤ l.length := by
  refine ⟨min k l.length, ?_, ?_, min_le_left _ _, min_le_right _ _⟩
  · rw [← take_take, take_length]
  · rw [← length_take]
    exact length_pos_iff.mpr h

/-- What is known at the end: a result `r` means that the server sent a message of `r` bytes, and
that these are in the answer buffer. -/
def Delivered (S : List UInt8) (res : TcpResult) : Prop :=
  ∀ r, res.2 = some r → 12 ≤ r ∧ r = beLength (S.take 2) ∧ 2 + r ≤ S.length ∧
    window res.1 0 r = (S.drop 2).take r

theorem tcpLength_received {it : Iteration} (hw : t.want = none) (ht : Received S t) :
    match tcpLength it t with | .inl t' => Received S t' | .inr res => Delivered S res := by
  have hfail : Delivered S (t.a, none) := fun r h => by cases h
  have ht' := ht
  simp only [Received, hw] at ht'
  obtain ⟨hgot, hlen, hbuf, hstream⟩ := ht'
  unfold tcpLength
  by_cases h1 : it.n < 0
  · rw [if_pos h1]
    cases it.again
    · exact hfail
    · exact ht
  rw [if_neg h1]
  by_cases h2 : t.stream.take (min it.n.toNat (2 - t.got)) = []
  · rw [if_pos h2]; exact hfail
  rw [if_neg h2]
  obtain ⟨j, hj, hj0, hjk, hjl⟩ := exists_take_eq h2
  have hjS : t.got + j ≤ S.length := by rw [hstream, length_drop] at hjl; omega
  rw [hj, hbuf, hstream, length_take, length_drop, min_eq_left (by omega), ← take_add,
    drop_drop]
  by_cases h3 : t.got + j = 2
  · rw [if_pos h3, h3]
    by_cases h4 : beLength (S.take 2) < 12
    · rw [if_pos h4]; exact hfail
    · rw [if_neg h4]
      exact ⟨rfl, by omega, by dsimp only; omega, by dsimp only; omega, rfl, by simp⟩
  · rw [if_neg h3]
    exact ⟨by dsimp only; omega, hjS, rfl, rfl⟩

theorem tcpMessage_received {it : Iteration} {want : ℕ}
    (hw : t.want = some want) (ht : Received S t) : match tcpMessage want it t with
    | .inl t' => Received S t' | .inr res => Delivered S res := by
  have hfail : Delivered S (t.a, none) := fun r h => by cases h
  have ht' := ht
  simp only [Received, hw] at ht'
  obtain ⟨hwant, h12, hgot, hlen, hstream, hwin⟩ := ht'
  unfold tcpMessage
  by_cases h1 : it.n < 0
  · rw [if_pos h1]
    cases it.again
    · exact hfail
    · exact ht
  rw [if_neg h1]
  by_cases h2 : t.stream.take (min it.n.toNat (want - t.got)) = []
  · rw [if_pos h2]; exact hfail
  rw [if_neg h2]
  obtain ⟨j, hj, hj0, hjk, hjl⟩ := exists_take_eq h2
  have hjS : 2 + (t.got + j) ≤ S.length := by rw [hstream, length_drop] at hjl; omega
  have hlenj : (t.stream.take j).length = j := by rw [length_take, min_eq_left hjl]
  -- the message so far, with the bytes that arrive now
  have hwin' : window (fill t.a t.got (t.stream.take j)) 0 (t.got + j) =
      (S.drop 2).take (t.got + j) := by
    have h := window_fill_append (M := t.a) (l := t.stream.take j) (Nat.zero_le t.got)
    rw [hlenj] at h
    rw [h, hwin, hstream, ← drop_drop, ← take_add]
  rw [hj, hlenj]
  by_cases h3 : t.got + j = want
  · rw [if_pos h3]
    intro r hr
    obtain rfl : want = r := some.inj hr
    rw [h3] at hwin' hjS
    exact ⟨h12, hwant, hjS, hwin'⟩
  · rw [if_neg h3]
    refine ⟨hwant, h12, ?_, hjS, ?_, hwin'⟩
    · dsimp only; omega
    · dsimp only; rw [hstream, drop_drop, Nat.add_assoc]

theorem tcpStep_received (total : ℕ) (it : Iteration) (ht : Received S t) :
    match tcpStep total it t with | .inl t' => Received S t' | .inr res => Delivered S res := by
  have hfail : Delivered S (t.a, none) := fun r h => by cases h
  unfold tcpStep
  split_ifs
  · exact hfail
  · exact ht
  · exact hfail
  · exact ht
  · cases hw : t.want with
    | none => exact tcpLength_received hw ht
    | some want => exact tcpMessage_received hw ht

theorem tcpLoop_delivered (total : ℕ) : ∀ (its : List Iteration) (t : Tcp),
    Received S t → Delivered S (tcpLoop total its t)
  | [], t, _ => fun r h => by cases h
  | it :: its, t, ht => by
    have h := tcpStep_received total it ht
    unfold tcpLoop
    cases hs : tcpStep total it t with
    | inl t' =>
      rw [hs] at h
      exact tcpLoop_delivered total its t' h
    | inr res =>
      rw [hs] at h
      exact h

/-- **What a TCP query returns.** A result `r` is the length that the server sent, and the answer
buffer holds the `r` bytes that the server sent after it. -/
theorem tcpQuery_delivered (conv : Conversation) (q : List UInt8) (a : ℕ → UInt8) :
    Delivered conv.stream (tcpQuery conv q a) := by
  unfold tcpQuery
  split_ifs
  · exact tcpLoop_delivered _ _ _ ⟨by dsimp only; omega, Nat.zero_le _, rfl, rfl⟩
  · exact fun r h => by cases h

end Citadel.Resolv
