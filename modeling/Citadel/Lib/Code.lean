import Citadel.Lib.Decoder

/-!
# Prefix codes and their decoders

A prefix code gives each character a word that begins no other character's word. A decoder that is
fed symbol by symbol reads such a code if its state tells which part of a word it has seen
(`Reads`).

* `Reads.feedAll_encode`: a decoder that reads a code decodes every text.
* `Reads.feedAll_no_text`: it refuses what is no encoding at the first symbol that rules it out, or
  is left inside a word.
-/

namespace Citadel.Lib.Code

open Citadel.Lib.Decoder List

universe u v w x

variable {χ : Type u} {β : Type v} {σ : Type w} {γ : Type x}

/-- A code none of whose words begins another one. -/
structure PrefixCode (enc : χ → List β) : Prop where
  ne_nil : ∀ c, enc c ≠ []
  free : ∀ {c d : χ} {t : List β}, enc c ++ t = enc d → c = d

variable {enc : χ → List β}

theorem PrefixCode.split (h : PrefixCode enc) : ∀ {cs ds : List χ} {q : List β},
    cs.flatMap enc ++ q = ds.flatMap enc → ∃ es, ds = cs ++ es ∧ q = es.flatMap enc
  | [], ds, q, heq => ⟨ds, rfl, heq⟩
  | c :: cs, [], q, heq => by
    rw [flatMap_nil, flatMap_cons, append_assoc] at heq
    exact absurd (append_eq_nil_iff.mp heq).1 (h.ne_nil c)
  | c :: cs, d :: ds, q, heq => by
    rw [flatMap_cons, flatMap_cons, append_assoc] at heq
    have hcd : c = d := by
      rcases append_eq_append_iff.mp heq with ⟨t, ht, -⟩ | ⟨t, ht, -⟩
      · exact h.free ht.symm
      · exact (h.free ht.symm).symm
    subst hcd
    obtain ⟨es, rfl, hq⟩ := h.split (append_cancel_left heq)
    exact ⟨es, rfl, hq⟩

/-- The state `s` of a decoder after the part `p` of a word; `out` are the characters as it gives
them. -/
structure Reads (f : σ → β → Fed σ γ) (enc : χ → List β) (out : χ → γ) (s₀ : σ)
    (After : List β → σ → Prop) : Prop where
  code : PrefixCode enc
  start : ∀ {s}, After [] s ↔ s = s₀
  part : ∀ {p s}, After p s → ∃ c t, t ≠ [] ∧ p ++ t = enc c
  step : ∀ {p s} (b), After p s →
    (f s b = .bad ∧ ¬ ∃ c t, p ++ [b] ++ t = enc c) ∨
    (∃ s', f s b = .more s' ∧ After (p ++ [b]) s') ∨
    ∃ c, p ++ [b] = enc c ∧ f s b = .emit (out c) s₀

namespace Reads

variable {f : σ → β → Fed σ γ} {out : χ → γ} {s₀ : σ} {After : List β → σ → Prop}

variable {p : List β} {s : σ} {b : β}

variable (h : Reads f enc out s₀ After)
include h

theorem more {s' : σ} (hp : After p s) (hf : f s b = .more s') : After (p ++ [b]) s' := by
  rcases h.step b hp with ⟨hb, -⟩ | ⟨r, hr, hafter⟩ | ⟨c, -, hc⟩
  · cases hf.symm.trans hb
  · rw [Fed.more.inj (hf.symm.trans hr)]
    exact hafter
  · cases hf.symm.trans hc

theorem emit {s' : σ} {g : γ} (hp : After p s)
    (hf : f s b = .emit g s') : s' = s₀ ∧ ∃ c, p ++ [b] = enc c ∧ g = out c := by
  rcases h.step b hp with ⟨hb, -⟩ | ⟨r, hr, -⟩ | ⟨c, hword, hc⟩
  · cases hf.symm.trans hb
  · cases hf.symm.trans hr
  · obtain ⟨hg, hs⟩ := Fed.emit.inj (hf.symm.trans hc)
    exact ⟨hs, c, hword, hg⟩

theorem bad (hp : After p s) (hf : f s b = .bad) : ¬ ∃ c t, p ++ [b] ++ t = enc c := by
  rcases h.step b hp with ⟨-, hno⟩ | ⟨r, hr, -⟩ | ⟨c, -, hc⟩
  · exact hno
  · cases hf.symm.trans hr
  · cases hf.symm.trans hc

theorem no_text (hp : After p s)
    (hb : f s b = .bad) : ¬ ∃ (cs : List χ) (t : List β), p ++ [b] ++ t = cs.flatMap enc := by
  rintro ⟨cs, t, heq⟩
  match cs, heq with
  | [], heq => cases (append_eq_nil_iff.mp (append_eq_nil_iff.mp heq).1).2
  | c :: cs, heq =>
    rw [flatMap_cons] at heq
    rcases append_eq_append_iff.mp heq with ⟨r, hr, -⟩ | ⟨r, hr, -⟩
    · exact h.bad hp hb ⟨c, r, hr.symm⟩
    · -- the word of `c` ends with `b` or before it
      rcases eq_nil_or_concat r with rfl | ⟨r, x, rfl⟩
      · exact h.bad hp hb ⟨c, [], by rw [append_nil, hr, append_nil]⟩
      · rw [concat_eq_append, ← append_assoc] at hr
        obtain ⟨hpr, -⟩ := append_inj' hr rfl
        obtain ⟨d, t', ht', hd⟩ := h.part hp
        rw [hpr, append_assoc] at hd
        obtain rfl := h.code.free hd
        have : (r ++ t').length = 0 := by
          have := congrArg List.length hd
          rw [length_append] at this
          omega
        exact ht' (append_eq_nil_iff.mp (length_eq_zero_iff.mp this)).2

/-- What was fed is a text and the part of a word that the state tells of. -/
theorem feedAll_split : ∀ {l : List β} {p : List β} {s s' : σ}
    {gs : List γ}, After p s → feedAll f s l = (gs, .inl s') →
    ∃ (cs : List χ) (q : List β), p ++ l = cs.flatMap enc ++ q ∧ After q s' ∧ gs = cs.map out
  | [], p, s, s', gs, hp, heq => by
    cases heq
    exact ⟨[], p, append_nil p, hp, rfl⟩
  | b :: l, p, s, s', gs, hp, heq => by
    rw [feedAll] at heq
    cases hf : f s b with
    | more r =>
      rw [hf] at heq
      obtain ⟨rfl, he⟩ := Prod.ext_iff.mp heq
      obtain ⟨cs, q, hl, hq, hgs⟩ :=
        feedAll_split (h.more hp hf) (Prod.ext rfl (later_eq_inl.mp he))
      exact ⟨cs, q, by rw [← hl, append_assoc, singleton_append], hq, hgs⟩
    | emit g r =>
      rw [hf] at heq
      obtain ⟨rfl, he⟩ := Prod.ext_iff.mp heq
      obtain ⟨hr, c, hc, rfl⟩ := h.emit hp hf
      obtain ⟨cs, q, hl, hq, hgs⟩ :=
        feedAll_split (h.start.mpr hr) (Prod.ext rfl (later_eq_inl.mp he))
      refine ⟨c :: cs, q, ?_, hq, congrArg (out c :: ·) hgs⟩
      rw [flatMap_cons, append_assoc, ← hl, ← hc, append_assoc]
      rfl
    | bad =>
      rw [hf] at heq
      cases heq

theorem feedAll_bad {l : List β} {gs : List γ} {i : ℕ} (hl : feedAll f s₀ l = (gs, .inr i)) :
    ¬ ∃ (cs : List χ) (t : List β), l.take (i + 1) ++ t = cs.flatMap enc := by
  rintro ⟨ds, t, hds⟩
  obtain ⟨s, b, hb, htake, hbad⟩ := feedAll_refused f hl
  obtain ⟨cs, q, hcs, hq, -⟩ := h.feedAll_split (h.start.mpr rfl) htake
  rw [nil_append] at hcs
  rw [take_add_one, hb, hcs, append_assoc, append_assoc] at hds
  obtain ⟨es, -, hes⟩ := h.code.split hds
  exact h.no_text hq hbad ⟨es, t, by rw [append_assoc]; exact hes⟩

theorem part_eq_nil {cs : List χ} (hp : After (cs.flatMap enc) s) : cs = [] := by
  match cs, hp with
  | [], _ => rfl
  | c :: cs, hp =>
    obtain ⟨d, t, ht, hd⟩ := h.part hp
    rw [flatMap_cons, append_assoc] at hd
    obtain rfl := h.code.free hd
    have hnil : cs.flatMap enc ++ t = [] := append_right_eq_self.mp hd
    exact absurd (append_eq_nil_iff.mp hnil).2 ht

theorem feedAll_encode (cs : List χ) : feedAll f s₀ (cs.flatMap enc) = (cs.map out, .inl s₀) := by
  rcases hl : feedAll f s₀ (cs.flatMap enc) with ⟨gs, s | i⟩
  · obtain ⟨ds, q, hds, hq, rfl⟩ := h.feedAll_split (h.start.mpr rfl) hl
    rw [nil_append] at hds
    obtain ⟨es, rfl, rfl⟩ := h.code.split hds.symm
    obtain rfl := h.part_eq_nil hq
    rw [h.start.mp hq, append_nil]
  · exact absurd ⟨cs, _, take_append_drop _ _⟩ (h.feedAll_bad hl)

/-- **What is no text is refused** at the first symbol that rules it out, or it ends inside a word.
-/
theorem feedAll_no_text {l : List β} (hl : ¬ ∃ cs : List χ, l = cs.flatMap enc) :
    ∃ i gs s q, feedAll f s₀ (l.take i) = (gs, .inl s) ∧ After q s ∧
      (∃ (cs : List χ) (t : List β), l.take i ++ t = cs.flatMap enc) ∧
      ((∃ b, l[i]? = some b ∧ f s b = .bad ∧
        ¬ ∃ (cs : List χ) (t : List β), l.take (i + 1) ++ t = cs.flatMap enc) ∨
      (i = l.length ∧ q ≠ [])) := by
  have hpart : ∀ {l' q : List β} {cs : List χ} {s : σ}, [] ++ l' = cs.flatMap enc ++ q → After q s →
      ∃ (cs : List χ) (t : List β), l' ++ t = cs.flatMap enc := by
    intro l' q cs s hcs hq
    obtain ⟨c, t, -, ht⟩ := h.part hq
    refine ⟨cs ++ [c], t, ?_⟩
    rw [nil_append] at hcs
    rw [hcs, append_assoc, ht, flatMap_append, flatMap_singleton]
  rcases heq : feedAll f s₀ l with ⟨gs, s | i⟩
  · obtain ⟨cs, q, hcs, hq, -⟩ := h.feedAll_split (h.start.mpr rfl) heq
    refine ⟨l.length, gs, s, q, by rw [take_length, heq], hq,
      by rw [take_length]; exact hpart hcs hq, .inr ⟨rfl, ?_⟩⟩
    rintro rfl
    exact hl ⟨cs, by rwa [nil_append, append_nil] at hcs⟩
  · obtain ⟨s, b, hb, htake, hbad⟩ := feedAll_refused f heq
    obtain ⟨cs, q, hcs, hq, -⟩ := h.feedAll_split (h.start.mpr rfl) htake
    exact ⟨i, gs, s, q, htake, hq, hpart hcs hq, .inl ⟨b, hb, hbad, h.feedAll_bad heq⟩⟩

end Reads

end Citadel.Lib.Code
