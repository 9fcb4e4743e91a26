import Citadel.Resolv.Query

/-!
# Names in messages

`__valid_hostname` and `get_name` of `src/resolv.c`. A message is the list of its bytes, so its
length is `len`; a read outside it is a `fault`, and so is a loop that does not end.

* `getName_safe`: `get_name` reads only the message, and a name that it returns is at most 253 long.
* `name_survives`: a valid name is found again in the query that `mkquery` builds for it.
-/

namespace Citadel.Resolv

open List Option Nat

def labelCharOk (ch : UInt8) : Bool :=
  (97 ≤ ch && ch ≤ 122) || (65 ≤ ch && ch ≤ 90) || (48 ≤ ch && ch ≤ 57) || ch = 45 || ch = 95

/-- The loop of `__valid_hostname`, with `lab` characters of the label so far. -/
def validLabels : ℕ → List UInt8 → Bool
  | _, [] => true
  | lab, c :: s =>
    if c = dot then lab ≠ 0 && validLabels 0 s
    else labelCharOk c && lab + 1 ≤ 63 && validLabels (lab + 1) s

def validHostname (s : List UInt8) : Bool := s.length ≠ 0 && s.length ≤ 253 && validLabels 0 s

/-! ## Parsers -/

/-- Why a parser stops: it does something undefined, or it returns an error. -/
inductive Stop where
  | fault
  | fail
deriving DecidableEq, Repr

abbrev Parse := Except Stop

/-- The byte at offset `i`. -/
def rd (m : List UInt8) (i : ℕ) : Parse UInt8 :=
  match m[i]? with
  | some c => .ok c
  | none => .error .fault

/-- A label of `n` characters from offset `pos` on is put behind `out`. -/
def copyLabel (m : List UInt8) : ℕ → ℕ → List UInt8 → Parse (List UInt8)
  | 0, _, out => .ok out
  | n + 1, pos, out => do
    let ch ← rd m pos
    if labelCharOk ch then copyLabel m n (pos + 1) (out ++ [ch]) else .error .fail

/-- A label behind a name. -/
def joinDot (out : List UInt8) : List UInt8 := if out = [] then out else out ++ [dot]

/-- The loop of `get_name`; `fin` is `end`, once it is set. -/
def getNameLoop (m : List UInt8) : ℕ → ℕ → Option ℕ → ℕ → List UInt8 → Parse (ℕ × List UInt8)
  | 0, _, _, _, _ => .error .fault
  | fuel + 1, off, fin, jumps, out =>
    if off ≥ m.length then .error .fail
    else do
      let c ← rd m off
      if c &&& 0xc0 = 0xc0 then
        if off + 1 ≥ m.length ∨ jumps + 1 > 64 then .error .fail
        else do
          let d ← rd m (off + 1)
          let dest := (c &&& 0x3f).toNat <<< 8 ||| d.toNat
          if dest ≥ off then .error .fail
          else getNameLoop m fuel dest (some (fin.getD (off + 2))) (jumps + 1) out
      else if c &&& 0xc0 ≠ 0 then .error .fail
      else if c = 0 then .ok (fin.getD (off + 1), out)
      else if off + 1 + c.toNat > m.length ∨ out.length + c.toNat + 1 > 253 then .error .fail
      else do
        let out' ← copyLabel m c.toNat (off + 1) (joinDot out)
        getNameLoop m fuel (off + 1 + c.toNat) fin jumps out'

/-- `get_name`: the offset behind the name and the name. Every round jumps or adds a label, so there
are fewer than 320 of them. -/
def getName (m : List UInt8) (off : ℕ) : Parse (ℕ × List UInt8) := getNameLoop m 320 off none 0 []

/-! ## Safety -/

/-- The parser does nothing undefined, and a result satisfies `Q`. -/
def Safe {α : Type} (x : Parse α) (Q : α → Prop) : Prop :=
  match x with
  | .ok a => Q a
  | .error e => e = .fail

section Rules

variable {α β : Type} {x : Parse α} {f : α → Parse β} {Q : α → Prop}

theorem Safe.ok {a : α} (h : Safe x Q) (hx : x = .ok a) : Q a := by
  rw [hx] at h
  exact h

theorem Safe.mono {Q' : α → Prop} (h : Safe x Q) (hQ : ∀ a, Q a → Q' a) : Safe x Q' := by
  cases x with
  | ok a => exact hQ a h
  | error e => exact h

theorem Safe.bind {R : β → Prop} (h : Safe x fun a => Safe (f a) R) : Safe (x >>= f) R := by
  cases x with
  | ok a | error e => exact h

theorem Safe.bind_of {R : β → Prop} (h : Safe x Q) (hf : ∀ a, x = .ok a → Safe (f a) R) :
    Safe (x >>= f) R := by
  cases x with
  | ok a => exact hf a rfl
  | error e => exact h

theorem Safe.ite {c : Prop} [Decidable c] {y : Parse α} (hx : c → Safe x Q) (hy : ¬ c → Safe y Q) :
    Safe (if c then x else y) Q := by
  by_cases hc : c
  · rw [if_pos hc]
    exact hx hc
  · rw [if_neg hc]
    exact hy hc

theorem safe_fail : Safe (.error .fail : Parse α) Q := rfl

end Rules

variable {m : List UInt8}

variable {i : ℕ} {r : List UInt8}

theorem rd_eq {c : UInt8} (h : m[i]? = some c) : rd m i = .ok c := by
  rw [rd, h]

theorem safe_rd (hi : i < m.length) : Safe (rd m i) fun c => m[i]? = some c := by
  rw [rd_eq (getElem?_eq_getElem hi)]
  exact getElem?_eq_getElem hi

theorem safe_copyLabel : ∀ (n pos : ℕ) (out : List UInt8), pos + n ≤ m.length →
    Safe (copyLabel m n pos out) fun out' => out'.length = out.length + n
  | 0, _, _, _ => rfl
  | n + 1, pos, out, h => by
    refine .bind ((safe_rd (by omega)).mono fun ch _ => .ite (fun _ => ?_) fun _ => safe_fail)
    refine (safe_copyLabel n (pos + 1) (out ++ [ch]) (by omega)).mono fun out' hout' => ?_
    rw [hout', length_append, length_singleton]
    omega

theorem length_joinDot (out : List UInt8) : (joinDot out).length = out.length + 1 ∨
    out.length = 0 ∧ (joinDot out).length = 0 := by
  unfold joinDot
  split_ifs with h
  · exact .inr (by simp [h])
  · exact .inl length_append

/-- Every round makes the name longer or is one of at most 64 jumps. -/
theorem safe_getNameLoop : ∀ (fuel off : ℕ) (fin : Option ℕ) (jumps : ℕ) (out : List UInt8),
    (∀ e, fin = some e → e ≤ m.length) → jumps ≤ 64 → out.length ≤ 253 →
    (64 - jumps) + (253 - out.length) < fuel →
    Safe (getNameLoop m fuel off fin jumps out) fun r => r.1 ≤ m.length ∧ r.2.length ≤ 253
  | 0, _, _, _, _, _, _, _, h => by omega
  | fuel + 1, off, fin, jumps, out, hfin, hj, hout, hfuel => by
    refine .ite (fun _ => safe_fail) fun hoff => ?_
    refine .bind ((safe_rd (by omega)).mono fun c _ => ?_)
    refine .ite (fun _ => ?_) fun _ => .ite (fun _ => safe_fail) fun _ => ?_
    · -- a jump
      refine .ite (fun _ => safe_fail) fun hok => ?_
      rw [not_or] at hok
      refine .bind ((safe_rd (by omega)).mono fun d _ => ?_)
      refine .ite (fun _ => safe_fail) fun _ => ?_
      refine safe_getNameLoop fuel _ _ _ _ (fun e he => ?_) (by omega) hout (by omega)
      cases he
      cases hf : fin with
      | none => rw [getD_none]; omega
      | some e => exact hfin e hf
    · refine .ite (fun _ => ?_) fun hc => .ite (fun _ => safe_fail) fun hok => ?_
      · refine ⟨?_, hout⟩
        change fin.getD (off + 1) ≤ m.length
        cases hf : fin with
        | none => rw [getD_none]; omega
        | some e => exact hfin e hf
      · -- a label
        rw [not_or] at hok
        have hpos : 0 < c.toNat := Nat.pos_of_ne_zero fun h => hc (UInt8.toNat_inj.mp h)
        have hjoin := length_joinDot out
        refine .bind ((safe_copyLabel _ _ _ (by omega)).mono fun out' hout' => ?_)
        exact safe_getNameLoop fuel _ _ _ _ hfin hj (by omega) (by omega)

theorem getName_safe (m : List UInt8) (off : ℕ) :
    Safe (getName m off) fun r => r.1 ≤ m.length ∧ r.2.length ≤ 253 :=
  safe_getNameLoop 320 off none 0 [] nofun (by omega) (zero_le _) (by simp)

/-! ## Valid names -/

/-- A dotted name and its labels. -/
inductive Dotted : List UInt8 → List (List UInt8) → Prop
  | last {l : List UInt8} (hl : l ≠ []) (hd : dot ∉ l) : Dotted l [l]
  | cons {l p : List UInt8} {ls : List (List UInt8)} (hl : l ≠ []) (hd : dot ∉ l)
      (h : Dotted p ls) : Dotted (l ++ dot :: p) (l :: ls)

/-- The labels are short and made of the right characters. -/
def GoodLabels (ls : List (List UInt8)) : Prop :=
  ∀ l ∈ ls, l.length ≤ 63 ∧ ∀ c ∈ l, labelCharOk c = true

theorem validLabels_append {s : List UInt8} : ∀ {l : List UInt8} {lab : ℕ}, dot ∉ l → lab ≤ 63 →
    validLabels lab (l ++ s) = true →
    (∀ c ∈ l, labelCharOk c = true) ∧ lab + l.length ≤ 63 ∧ validLabels (lab + l.length) s = true
  | [], lab, _, hlab, h => ⟨fun c hc => absurd hc not_mem_nil, hlab, h⟩
  | c :: l, lab, hd, hlab, h => by
    have hc : ¬ c = dot := fun e => hd (e ▸ mem_cons_self)
    rw [cons_append, validLabels, if_neg hc, Bool.and_eq_true, Bool.and_eq_true,
      decide_eq_true_eq] at h
    obtain ⟨⟨hok, hle⟩, h⟩ := h
    obtain ⟨h1, h2, h3⟩ := validLabels_append (fun e => hd (mem_cons_of_mem c e)) hle h
    rw [length_cons]
    refine ⟨fun x hx => ?_, by omega, by rwa [add_assoc, add_comm 1] at h3⟩
    rcases mem_cons.mp hx with rfl | hx
    · exact hok
    · exact h1 x hx

theorem exists_labels : ∀ (n : ℕ) {p : List UInt8}, p.length ≤ n → p ≠ [] →
    validLabels 0 p = true → p.getLast? ≠ some dot → ∃ ls, Dotted p ls ∧ GoodLabels ls
  | 0, p, hn, hp, _, _ => absurd (length_eq_zero_iff.mp (le_zero.mp hn)) hp
  | n + 1, p, hn, hp, hv, hlast => by
    have hdot := dot_not_mem_takeWhile p
    rcases takeWhile_split p with e | ⟨rest, e⟩
    · rw [← e] at hdot
      obtain ⟨h1, h2, -⟩ := validLabels_append (s := []) hdot (zero_le _)
        (by rwa [append_nil])
      refine ⟨[p], .last hp hdot, fun l hl => ?_⟩
      rw [mem_singleton.mp hl]
      exact ⟨by omega, h1⟩
    · generalize p.takeWhile (· ≠ dot) = label at e hdot
      subst e
      obtain ⟨h1, h2, h3⟩ := validLabels_append hdot (zero_le _) hv
      rw [validLabels, if_pos rfl, Bool.and_eq_true, decide_eq_true_eq] at h3
      have hrest : rest ≠ [] := by
        rintro rfl
        exact hlast (by simp)
      have hlen : rest.length ≤ n := by
        rw [length_append, length_cons] at hn
        omega
      have hlast' : rest.getLast? ≠ some dot := by
        rw [getLast?_append_of_ne_nil _ (cons_ne_nil _ _),
          getLast?_cons_of_ne_nil hrest] at hlast
        exact hlast
      obtain ⟨ls, hD, hG⟩ := exists_labels n hlen hrest h3.2 hlast'
      refine ⟨label :: ls, .cons (fun e => h3.1 (by rw [e]; rfl)) hdot hD, fun l hl => ?_⟩
      rcases mem_cons.mp hl with rfl | hl
      · exact ⟨by omega, h1⟩
      · exact hG l hl

/-! ## There and back -/

theorem mkqueryLoop_dotted {p : List UInt8} {ls : List (List UInt8)} (hD : Dotted p ls) :
    ∀ {fuel : ℕ} {q : List UInt8}, GoodLabels ls → p.length ≤ fuel →
      q.length + 1 + p.length ≤ 12 + 254 → mkqueryLoop fuel p q = some (q ++ wire ls) := by
  have htake : ∀ (l : List UInt8), dot ∉ l → ∀ r, (l ++ dot :: r).takeWhile (· ≠ dot) = l := by
    intro l hl r
    rw [takeWhile_append_of_pos fun x hx =>
      decide_eq_true (ne_of_mem_of_not_mem hx hl)]
    simp
  induction hD with
  | @last l hl hd =>
    intro fuel q hG hfuel hq
    obtain ⟨c, p, rfl⟩ := exists_cons_of_ne_nil hl
    obtain ⟨fuel, rfl⟩ : ∃ n, fuel = n + 1 := exists_eq_succ_of_ne_zero (by
      rw [length_cons] at hfuel
      omega)
    have hall : (c :: p).takeWhile (· ≠ dot) = c :: p :=
      takeWhile_eq_self_iff.mpr fun x hx => decide_eq_true (ne_of_mem_of_not_mem hx hd)
    have hlen := (hG _ mem_cons_self).1
    simp only [mkqueryLoop]
    rw [hall, if_neg (by rw [length_cons] at *; omega), drop_length]
    cases fuel <;> simp [mkqueryLoop, wire]
  | @cons l p ls hl hd hD ih =>
    intro fuel q hG hfuel hq
    have hG' : GoodLabels ls := fun x hx => hG x (mem_cons_of_mem l hx)
    have hlen := (hG l mem_cons_self).1
    obtain ⟨c, r, hcr⟩ := exists_cons_of_ne_nil (l := l ++ dot :: p) (by simp)
    have hpos : 0 < l.length := length_pos_iff.mpr hl
    rw [length_append, length_cons] at hfuel hq
    obtain ⟨fuel, rfl⟩ : ∃ n, fuel = n + 1 := exists_eq_succ_of_ne_zero (by omega)
    rw [hcr]
    simp only [mkqueryLoop]
    rw [← hcr, htake l hd p, if_neg (by omega), drop_left' rfl]
    simp only [head?_cons, if_true, tail_cons]
    rw [ih hG' (by omega) (by rw [length_append, length_cons]; omega)]
    simp [wire]

theorem lengthByte {n : ℕ} (h0 : 0 < n) (hn : n ≤ 63) : n.toUInt8.toNat = n ∧ n.toUInt8 ≠ 0 ∧
    n.toUInt8 &&& 0xc0 = 0 := by
  have hall : ∀ i : Fin 64, 0 < i.val → i.val.toUInt8.toNat = i.val ∧ i.val.toUInt8 ≠ 0 ∧
      i.val.toUInt8 &&& 0xc0 = 0 := by decide
  exact hall ⟨n, by omega⟩ h0

theorem getElem?_of_drop {l : List UInt8} {c : UInt8} (h : l.drop i = c :: r) : l[i]? = some c := by
  rw [← head?_drop, h]
  rfl

theorem copyLabel_eq : ∀ {l : List UInt8} {pos : ℕ} {out r : List UInt8}, m.drop pos = l ++ r →
    (∀ c ∈ l, labelCharOk c = true) → copyLabel m l.length pos out = .ok (out ++ l)
  | [], _, out, _, _, _ => by simp [copyLabel]
  | c :: l, pos, out, r, h, hok => by
    have hc := rd_eq (getElem?_of_drop h)
    have hrest : m.drop (pos + 1) = l ++ r := by
      rw [← drop_drop, h]
      rfl
    change (rd m pos >>= fun ch =>
      if labelCharOk ch then copyLabel m l.length (pos + 1) (out ++ [ch]) else .error .fail) = _
    rw [hc]
    change (if labelCharOk c then copyLabel m l.length (pos + 1) (out ++ [c]) else .error .fail) = _
    rw [if_pos (hok c mem_cons_self),
      copyLabel_eq hrest fun x hx => hok x (mem_cons_of_mem c hx), append_assoc]
    rfl

theorem getNameLoop_label {fuel off jumps : ℕ} {fin : Option ℕ} {out l : List UInt8}
    (h : m.drop off = l.length.toUInt8 :: (l ++ r)) (h0 : l ≠ []) (hl : l.length ≤ 63)
    (hok : ∀ c ∈ l, labelCharOk c = true) (hout : out.length + l.length + 1 ≤ 253) :
    getNameLoop m (fuel + 1) off fin jumps out =
      getNameLoop m fuel (off + 1 + l.length) fin jumps (joinDot out ++ l) := by
  obtain ⟨hn, hne, hand⟩ := lengthByte (length_pos_iff.mpr h0) hl
  have hrest : m.drop (off + 1) = l ++ r := by
    rw [← drop_drop, h]
    rfl
  have hlen : off + 1 + l.length ≤ m.length := by
    have h1 := congrArg length hrest
    have h2 := (List.getElem?_eq_some_iff.mp (getElem?_of_drop h)).1
    rw [length_drop, length_append] at h1
    omega
  rw [getNameLoop, if_neg (by omega), rd_eq (getElem?_of_drop h)]
  change (if l.length.toUInt8 &&& 0xc0 = 0xc0 then _ else _) = _
  rw [hand, if_neg (by decide), if_neg (by decide), if_neg hne, hn, if_neg (by omega),
    copyLabel_eq hrest hok]
  rfl

theorem getNameLoop_root {fuel off jumps : ℕ} {out : List UInt8} (h : m.drop off = 0 :: r) :
    getNameLoop m (fuel + 1) off none jumps out = .ok (off + 1, out) := by
  have hlt := (List.getElem?_eq_some_iff.mp (getElem?_of_drop h)).1
  rw [getNameLoop, if_neg (by omega), rd_eq (getElem?_of_drop h)]
  rfl

theorem getNameLoop_wire {p : List UInt8} {ls : List (List UInt8)} (hD : Dotted p ls) :
    ∀ {fuel off jumps : ℕ} {out r : List UInt8}, GoodLabels ls → m.drop off = wire ls ++ 0 :: r →
      (joinDot out ++ p).length ≤ 253 → p.length < fuel →
      getNameLoop m (fuel + 1) off none jumps out =
        .ok (off + (wire ls).length + 1, joinDot out ++ p) := by
  have hout : ∀ out l : List UInt8, l.length ≤ 63 → (joinDot out ++ l).length ≤ 253 →
      out.length + l.length + 1 ≤ 253 := by
    intro out l hl h
    have hjoin := length_joinDot out
    rw [length_append] at h
    omega
  induction hD with
  | @last l hl hd =>
    intro fuel off jumps out r hG h hlen hfuel
    obtain ⟨h63, hok⟩ := hG l mem_cons_self
    obtain ⟨fuel, rfl⟩ : ∃ n, fuel = n + 1 := exists_eq_succ_of_ne_zero (by omega)
    have hw : wire [l] = l.length.toUInt8 :: l := by simp [wire]
    rw [hw, cons_append] at h
    rw [getNameLoop_label h hl h63 hok (hout out l h63 hlen), getNameLoop_root (r := r), hw]
    · rw [length_cons, add_assoc off 1, add_comm 1]
    · rw [add_assoc, ← drop_drop, h, add_comm, drop_succ_cons,
        drop_left' rfl]
  | @cons l p ls hl hd hD ih =>
    intro fuel off jumps out r hG h hlen hfuel
    obtain ⟨h63, hok⟩ := hG l mem_cons_self
    rw [length_append, length_cons] at hfuel
    obtain ⟨fuel, rfl⟩ : ∃ n, fuel = n + 1 := exists_eq_succ_of_ne_zero (by omega)
    have hw : wire (l :: ls) = l.length.toUInt8 :: (l ++ wire ls) := by simp [wire]
    rw [hw, cons_append, append_assoc] at h
    have hjoin : joinDot (joinDot out ++ l) = joinDot out ++ l ++ [dot] := by
      rw [joinDot, if_neg (by simp [hl])]
    have hshort : (joinDot out ++ l).length ≤ 253 := by
      rw [length_append] at hlen ⊢
      rw [length_append] at hlen
      omega
    rw [getNameLoop_label h hl h63 hok (hout out l h63 hshort),
      ih (r := r) (fun x hx => hG x (mem_cons_of_mem l hx)), hw, hjoin]
    · rw [length_cons, length_append]
      simp only [append_assoc, cons_append, nil_append, Except.ok.injEq, Prod.mk.injEq,
        and_true]
      omega
    · rw [add_assoc, ← drop_drop, h, add_comm, drop_succ_cons,
        drop_left' rfl]
    · rw [hjoin]
      simpa [append_assoc] using hlen
    · omega

/-- **Names survive the wire.** -/
theorem name_survives : (∀ (name : List UInt8) (type id : ℕ), validHostname name = true →
      name.getLast? ≠ some dot → ∃ q, mkquery name type id = some q ∧
        getName q 12 = .ok (q.length - 4, name)) ∧
    ∀ (m : List UInt8) (off o : ℕ) (name : List UInt8), getName m off = .ok (o, name) →
      name.length ≤ 253 := by
  refine ⟨fun name type id hv hlast => ?_, fun m off o name h => ((getName_safe m off).ok h).2⟩
  rw [validHostname, Bool.and_eq_true, Bool.and_eq_true, decide_eq_true_eq, decide_eq_true_eq] at hv
  obtain ⟨⟨h0, h253⟩, hv⟩ := hv
  have hne : name ≠ [] := fun e => h0 (by rw [e]; rfl)
  obtain ⟨ls, hD, hG⟩ := exists_labels name.length le_rfl hne hv hlast
  have hq : mkquery name type id = some (header id ++ wire ls ++ trailer type) := by
    rw [mkquery, if_neg hne, mkqueryLoop_dotted hD hG le_rfl]
    · rfl
    · change 12 + 1 + name.length ≤ 12 + 254
      omega
  refine ⟨_, hq, ?_⟩
  have hdrop : (header id ++ wire ls ++ trailer type).drop 12 =
      wire ls ++ 0 :: (trailer type).tail := by
    rw [append_assoc, drop_left' (show (header id).length = 12 from rfl)]
    rfl
  rw [getName, getNameLoop_wire hD hG hdrop (by simpa [joinDot] using h253) (by omega)]
  have hlen : (header id ++ wire ls ++ trailer type).length - 4 = 12 + (wire ls).length + 1 := by
    rw [length_append, length_append]
    change 12 + (wire ls).length + 5 - 4 = _
    omega
  rw [hlen]
  rfl

/-- `a.b` -/
theorem name_survives_ab : (validHostname [97, 46, 98] = true ∧
      ([97, 46, 98] : List UInt8).getLast? ≠ some dot) ∧
    ∃ q, mkquery [97, 46, 98] T_A 7 = some q ∧ getName q 12 = .ok (q.length - 4, [97, 46, 98]) :=
  ⟨⟨by decide, by decide⟩, name_survives.1 [97, 46, 98] T_A 7 (by decide) (by decide)⟩

end Citadel.Resolv
