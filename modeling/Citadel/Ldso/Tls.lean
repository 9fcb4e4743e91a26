import Citadel.Ldso.Bindings
import Mathlib.Algebra.Order.Ring.Int

/-!
# The layout of static thread-local storage

Every thread has the blocks of all modules below its thread pointer `tp`; the block of a module with
the offset `o` starts at `tp - o`.

* `tlsOffsets_spec`: as long as the exact sums fit into a `size_t`, the offsets are exact.
* `Sound`: the blocks are disjoint, below the thread pointer and aligned (`sound_of_laid`).
* `Opens`: what a `dlopen` does to the storage, from any state of the objects. It adds modules
  behind the others (`Opens.extends`), or is rolled back.
* `static_tls_sound`: the storage of every program, after any number of calls, in every thread.
-/

namespace Citadel.Ldso

open Citadel.Lib.Graph Citadel.Lib.Fallible List Nat

/-! ## Rounding -/

/-- The least multiple of `a` from `x` on. -/
def ceilTo (x a : ℕ) : ℕ := (x + a - 1) / a * a

theorem ceilTo_spec {a : ℕ} (x : ℕ) (ha : 0 < a) :
    x ≤ ceilTo x a ∧ ceilTo x a < x + a ∧ a ∣ ceilTo x a := by
  have h1 := div_add_mod (x + a - 1) a
  have h2 := mod_lt (x + a - 1) ha
  rw [mul_comm] at h1
  exact ⟨by unfold ceilTo; omega, by unfold ceilTo; omega, dvd_mul_left _ _⟩

/-- An alignment, as the format of objects asks for it. -/
def IsPow2 (a : UInt64) : Prop := ∃ k, a.toNat = 2 ^ k

theorem IsPow2.pos {a : UInt64} (h : IsPow2 a) : 0 < a.toNat := by
  obtain ⟨k, hk⟩ := h
  rw [hk]
  exact Nat.two_pow_pos k

theorem IsPow2.dvd {a b : UInt64} (ha : IsPow2 a) (hb : IsPow2 b) (h : a ≤ b) :
    a.toNat ∣ b.toNat := by
  obtain ⟨k, hk⟩ := ha
  obtain ⟨l, hl⟩ := hb
  rw [UInt64.le_iff_toNat_le, hk, hl] at h
  rw [hk, hl]
  exact Nat.pow_dvd_pow 2 ((Nat.pow_le_pow_iff_right Nat.one_lt_two).mp h)

theorem and_mask {n k : ℕ} (hn : n < 2 ^ 64) (hk : k < 64) :
    n &&& (2 ^ 64 - 2 ^ k) = n / 2 ^ k * 2 ^ k := by
  have hmask : 2 ^ 64 - 2 ^ k = (2 ^ (64 - k) - 1) <<< k := by
    rw [shiftLeft_eq, Nat.sub_mul, ← pow_add, Nat.sub_add_cancel hk.le, Nat.one_mul]
  rw [hmask, ← shiftRight_eq_div_pow, ← shiftLeft_eq]
  refine eq_of_testBit_eq fun i => ?_
  rw [testBit_and, testBit_shiftLeft, testBit_shiftLeft, testBit_two_pow_sub_one,
    testBit_shiftRight]
  by_cases hi : k ≤ i
  · rw [Nat.add_sub_cancel' hi]
    by_cases h64 : i < 64
    · simp [hi, show i - k < 64 - k by omega]
    · rw [testBit_lt_two_pow (hn.trans_le (Nat.pow_le_pow_right (by omega) (by omega)))]
      simp
  · simp [hi]

theorem toNat_mask {x a : UInt64} (ha : IsPow2 a) :
    (x &&& ~~~(a - 1)).toNat = x.toNat / a.toNat * a.toNat := by
  obtain ⟨k, hk⟩ := ha
  have ha64 := a.toNat_lt
  have hk64 : k < 64 := (Nat.pow_lt_pow_iff_right Nat.one_lt_two).mp (hk ▸ ha64)
  have hsub : (a - 1).toNat = 2 ^ k - 1 := by
    rw [UInt64.toNat_sub_of_le _ _ ?_, hk]
    · rfl
    · rw [UInt64.le_iff_toNat_le, hk]
      exact Nat.one_le_two_pow
  have hnot : (~~~(a - 1)).toNat = 2 ^ 64 - 2 ^ k := by
    have := Nat.one_le_two_pow (n := k)
    rw [UInt64.toNat_not, hsub]
    have h64 : UInt64.size = 2 ^ 64 := rfl
    omega
  rw [UInt64.toNat_and, hnot, and_mask x.toNat_lt hk64, hk]

theorem toNat_roundUp {x a : UInt64} (ha : IsPow2 a) (h : ceilTo x.toNat a.toNat < 2 ^ 64) :
    (roundUp x a).toNat = ceilTo x.toNat a.toNat := by
  have hpos := ha.pos
  obtain ⟨h1, h2, h3⟩ := ceilTo_spec x.toNat hpos
  -- the next multiple of `a` is at most the size of the type, so that the sum does not wrap
  have hle : ceilTo x.toNat a.toNat + a.toNat ≤ 2 ^ 64 := by
    obtain ⟨k, hk⟩ := ha
    have hdvd : a.toNat ∣ 2 ^ 64 := by
      have ha64 := a.toNat_lt
      rw [hk] at ha64 ⊢
      exact Nat.pow_dvd_pow 2 ((Nat.pow_lt_pow_iff_right Nat.one_lt_two).mp ha64).le
    exact le_of_lt_add_of_dvd (by omega) (Nat.dvd_add h3 (Nat.dvd_refl _)) hdvd
  unfold roundUp
  rw [toNat_mask ha, ceilTo]
  congr 2
  rw [UInt64.toNat_sub, UInt64.toNat_add]
  change (2 ^ 64 - 1 + _) % 2 ^ 64 = _
  omega

theorem toNat_sum {x y : UInt64} (h : x.toNat + y.toNat < 2 ^ 64) :
    (x + y).toNat = x.toNat + y.toNat := by
  rw [UInt64.toNat_add, mod_eq_of_lt h]

/-! ## Blocks -/

/-- The total of the modules from `off` on, without a bound. -/
def exactEnd : ℕ → List TlsMod → ℕ
  | off, [] => off
  | off, m :: ms => exactEnd (ceilTo (off + m.memsz.toNat) m.align.toNat) ms

/-- An address in the block of a module, in the thread of `tp`. -/
def TlsMod.Holds (m : TlsMod) (tp x : ℤ) : Prop :=
  tp - m.offset.toNat ≤ x ∧ x < tp - m.offset.toNat + m.memsz.toNat

/-- The storage is laid out soundly. -/
structure Sound (t : Tls) : Prop where
  disjoint : t.mods.Pairwise fun m m' => ∀ tp x, m.Holds tp x → ¬ m'.Holds tp x
  below : ∀ m ∈ t.mods, ∀ tp x, m.Holds tp x → tp - t.offset.toNat ≤ x ∧ x < tp
  aligned : ∀ m ∈ t.mods, ∀ tp : ℤ, (t.align.toNat : ℤ) ∣ tp →
    (m.align.toNat : ℤ) ∣ tp - m.offset.toNat

variable {t t' : Tls}

theorem le_exactEnd : ∀ (ms : List TlsMod) (off : ℕ), (∀ m ∈ ms, IsPow2 m.align) →
    off ≤ exactEnd off ms
  | [], _, _ => le_rfl
  | m :: ms, off, h => by
    have h1 := (ceilTo_spec (off + m.memsz.toNat) (h m mem_cons_self).pos).1
    have h2 := le_exactEnd ms (ceilTo (off + m.memsz.toNat) m.align.toNat)
      fun m' hm' => h m' (mem_cons_of_mem m hm')
    rw [exactEnd]
    omega

/-- **The offsets are exact** if the total fits: each block ends where the one before starts, or
below. -/
theorem tlsOffsets_spec : ∀ (ms : List TlsMod) (off : UInt64), (∀ m ∈ ms, IsPow2 m.align) →
    exactEnd off.toNat ms < 2 ^ 64 →
    (∀ m ∈ tlsOffsets off ms, off.toNat + m.memsz.toNat ≤ m.offset.toNat ∧
      m.offset.toNat ≤ exactEnd off.toNat ms ∧ m.align.toNat ∣ m.offset.toNat) ∧
    (tlsOffsets off ms).Pairwise (fun m m' => m.offset.toNat + m'.memsz.toNat ≤ m'.offset.toNat) ∧
    (ms.foldl (fun off m => roundUp (off + m.memsz) m.align) off).toNat = exactEnd off.toNat ms
  | [], _, _, _ => ⟨fun _ h => absurd h not_mem_nil, List.Pairwise.nil, rfl⟩
  | m :: ms, off, hpow, hlt => by
    have hm := hpow m mem_cons_self
    have hms : ∀ m' ∈ ms, IsPow2 m'.align := fun m' h => hpow m' (mem_cons_of_mem m h)
    obtain ⟨h1, -, h3⟩ := ceilTo_spec (off.toNat + m.memsz.toNat) hm.pos
    rw [exactEnd] at hlt ⊢
    have hend := le_exactEnd ms (ceilTo (off.toNat + m.memsz.toNat) m.align.toNat) hms
    have hsum := toNat_sum (x := off) (y := m.memsz) (by omega)
    obtain ⟨o, ho⟩ : ∃ o, o = roundUp (off + m.memsz) m.align := ⟨_, rfl⟩
    have hval : o.toNat = ceilTo (off.toNat + m.memsz.toNat) m.align.toNat := by
      rw [ho, toNat_roundUp hm (by rw [hsum]; omega), hsum]
    rw [← hval] at h1 h3 hend hlt ⊢
    obtain ⟨ih1, ih2, ih3⟩ := tlsOffsets_spec ms o hms hlt
    rw [tlsOffsets, ← ho, foldl_cons, ← ho]
    refine ⟨fun m' hm' => ?_, pairwise_cons.mpr ⟨fun m' hm' => (ih1 m' hm').1, ih2⟩, ih3⟩
    rcases mem_cons.mp hm' with rfl | hm'
    · exact ⟨h1, hend, h3⟩
    · obtain ⟨k1, k2, k3⟩ := ih1 m' hm'
      exact ⟨by omega, k2, k3⟩

theorem isPow2_foldl_align : ∀ (ms : List TlsMod) {a : UInt64}, (∀ m ∈ ms, IsPow2 m.align) →
    IsPow2 a → IsPow2 (ms.foldl (fun a m => if m.align > a then m.align else a) a) ∧
      ∀ m ∈ ms, m.align ≤ ms.foldl (fun a m => if m.align > a then m.align else a) a
  | [], _, _, ha => ⟨ha, fun _ h => absurd h not_mem_nil⟩
  | m :: ms, a, hpow, ha => by
    have hle : m.align ≤ if m.align > a then m.align else a := by
      split_ifs with h
      · exact UInt64.le_refl _
      · exact UInt64.not_lt.mp h
    have hpow' : IsPow2 (if m.align > a then m.align else a) := by
      split_ifs
      · exact hpow m mem_cons_self
      · exact ha
    obtain ⟨h1, h2⟩ := isPow2_foldl_align ms (fun m' h => hpow m' (mem_cons_of_mem m h)) hpow'
    refine ⟨h1, fun m' hm' => ?_⟩
    rcases mem_cons.mp hm' with rfl | hm'
    · exact UInt64.le_trans hle (le_foldl_align ms _)
    · exact h2 m' hm'

/-- **A layout is sound** if its total fits. -/
theorem sound_of_laid (ht : Laid t) (hpow : ∀ m ∈ t.mods, IsPow2 m.align)
    (hlt : exactEnd 0 t.mods < 2 ^ 64) : Sound t := by
  have hmods : tlsOffsets 0 t.mods = t.mods := congrArg Tls.mods ht
  have hoff : t.mods.foldl (fun off m => roundUp (off + m.memsz) m.align) 0 = t.offset :=
    congrArg Tls.offset ht
  have halign : t.mods.foldl (fun a m => if m.align > a then m.align else a) 64 = t.align :=
    congrArg Tls.align ht
  obtain ⟨h1, h2, h3⟩ := tlsOffsets_spec t.mods 0 hpow hlt
  obtain ⟨ha, hle⟩ := isPow2_foldl_align t.mods hpow (a := 64) ⟨6, rfl⟩
  rw [hmods] at h1 h2
  rw [hoff] at h3
  rw [halign] at ha hle
  refine ⟨h2.imp fun hm tp x hx hx' => ?_, fun m hm tp x hx => ?_, fun m hm tp htp => ?_⟩
  · unfold TlsMod.Holds at hx hx'
    omega
  · obtain ⟨k1, k2, -⟩ := h1 m hm
    unfold TlsMod.Holds at hx
    omega
  · have hdvd : (m.align.toNat : ℤ) ∣ t.align.toNat :=
      Int.natCast_dvd_natCast.mpr ((hpow m hm).dvd ha (hle m hm))
    exact Int.dvd_sub (Int.dvd_trans hdvd htp) (Int.natCast_dvd_natCast.mpr (h1 m hm).2.2)

/-! ## What leaves the storage as it is -/

theorem tls_listSelf (s : State) : (listSelf s).tls = s.tls := by
  unfold listSelf
  split_ifs <;> rfl

theorem tls_markClosure (d : Id) (s : State) : (markClosure d s).tls = s.tls :=
  dfs_rule (P := fun s' : State => s'.tls = s.tls) (U := fun _ => True) (fun _ _ _ _ _ _ => trivial)
    (fun _ _ _ _ h => h) (fun _ _ _ h => h) _ trivial rfl

theorem tls_orderInit (d : Id) (c : State × List Id) : (orderInit d c).1.tls = c.1.tls :=
  dfs_rule (P := fun c' : State × List Id => c'.1.tls = c.1.tls) (U := fun _ => True)
    (fun _ _ _ _ _ _ => trivial)
    (fun _ _ _ _ h => h) (fun _ _ _ h => h) _ trivial rfl

theorem tls_scan (h : Id) (s : State) : (scan h s).tls = s.tls :=
  bfs_rule (P := fun (s' : State) _ => s'.tls = s.tls) (U := fun _ => True)
    (fun _ _ _ _ _ _ _ => trivial) (fun _ _ _ _ _ h => h) _ 0 rfl

theorem keeps_mapLibrary (f : File) (d : Id) : Keeps State.tls (mapLibrary f d) := by
  unfold mapLibrary
  cases f.image with
  | error m => exact .bind (.update fun _ => rfl) fun _ => .throw _
  | ok elf =>
    exact .bind (.update fun _ => rfl) fun _ => .bind .get fun _ =>
      .ite (.throw _) (.pure _)

theorem keeps_loadLibrary (w : World) (n : Name) (d : Id) (direct : Bool) :
    Keeps State.tls (loadLibrary w n d direct) := by
  unfold loadLibrary
  refine .bind .get fun s => ?_
  cases findLoaded s n with
  | some d =>
    refine .bind (.update fun s => ?_) fun _ => .pure _
    split_ifs
    · exact tls_listSelf s
    · rfl
  | none =>
    refine .ite (.throw _) ?_
    cases w.find n (s.dso d).path (s.dso d).elf with
    | none => exact .throw _
    | some f =>
      refine .bind .get fun s => .ite (.throw _) ?_
      cases s.list.find? (sameFile s f) with
      | some d => exact .pure d
      | none =>
        exact .ite (.throw _) (.bind (.update fun _ => rfl) fun _ =>
          .bind (keeps_mapLibrary f _) fun _ => .pure _)

theorem keeps_loadNeeded (w : World) (d : Id) (direct : Bool) :
    ∀ ns : List Name, Keeps State.tls (loadNeeded w d direct ns)
  | [] => .pure _
  | n :: ns => .bind (keeps_loadLibrary w n d direct) fun _ =>
      .bind (.update fun _ => rfl) fun _ => keeps_loadNeeded w d direct ns

theorem keeps_loadDeps (w : World) : ∀ n i : ℕ, Keeps State.tls (loadDeps w n i)
  | 0, _ => .throw _
  | n + 1, i => by
    unfold loadDeps
    refine .bind .get fun s => ?_
    cases s.list[i]? with
    | none => exact .pure _
    | some d =>
      refine .bind ?_ fun _ => keeps_loadDeps w n (i + 1)
      unfold loadDepsOf
      exact .bind .get fun s => .ite (.pure _) (.ite (.throw _)
        (.bind (.update fun _ => rfl) fun _ =>
          .bind (keeps_loadNeeded w d _ _) fun _ => keeps_loadNeeded w d _ _))

theorem keeps_makeScope (w : World) (h : Id) : Keeps State.tls (makeScope w h) := by
  unfold makeScope
  exact .bind .get fun _ => .ite (.pure _) (.ite (.throw _)
    (.update fun s => tls_scan h (nextGen s)))

theorem keeps_relocateOne (d : Id) (r : Reloc) : Keeps State.tls (relocateOne d r) := by
  have hcheck : ∀ path found, Keeps State.tls (checkType path r found) := by
    intro path found
    unfold checkType
    cases r.type with
    | copy => exact .ite (.pure _) (.throw _)
    | irelative | unsupported => exact .throw _
    | _ => exact .pure _
  unfold relocateOne
  refine .ite (.pure _) (.bind .get fun s => ?_)
  rcases resolve s d r with e | _ | ⟨dd, x⟩
  · exact .throw e
  · exact hcheck _ _
  · refine .bind (.update fun s => ?_) fun _ => hcheck _ _
    unfold bindTo
    dsimp only
    split_ifs <;> rfl

theorem keeps_relocate (d : Id) : Keeps State.tls (relocate d) := by
  unfold relocate
  exact .bind (.update fun s => tls_markClosure d (nextGen s)) fun _ =>
    .bind .get fun _ => .bind (.forM _ (keeps_relocateOne d)) fun _ =>
    .bind .get fun _ => .bind (.forM _ (keeps_relocateOne d)) fun _ =>
    .update fun _ => rfl

theorem keeps_protectRelro (w : World) (d : Id) : Keeps State.tls (protectRelro w d) :=
  .bind .get fun _ => .ite (.throw _) (.pure _)

/-! ## `dlopen` -/

/-- Modules were added, and the space of a thread still holds all blocks. -/
structure Extends (t t' : Tls) : Prop where
  grows : TlsGrows t t'
  laid : Laid t'
  fits : t.offset ≤ t.reserve → t'.offset ≤ t'.reserve

theorem Extends.refl (ht : Laid t) : Extends t t := ⟨.refl t, ht, id⟩

theorem Extends.trans {t'' : Tls} (h : Extends t t') (h' : Extends t' t'') : Extends t t'' := by
  obtain ⟨x, hx, ha⟩ := h.grows.mods
  obtain ⟨y, hy, hb⟩ := h'.grows.mods
  refine ⟨⟨⟨x ++ y, by rw [hy, hx, append_assoc], fun m hm => ?_⟩,
    h'.grows.align.trans h.grows.align, h'.grows.reserve.trans h.grows.reserve⟩, h'.laid,
    fun hfit => h'.fits (h.fits hfit)⟩
  rcases mem_append.mp hm with hm | hm
  · exact ha m hm
  · exact h.grows.align ▸ hb m hm

theorem openNew_tls (w : World) (i : ℕ) (h : Id) {b : State} (hb : Laid b.tls) :
    Ends (openNew w i h) b (fun _ s => Extends b.tls s.tls) fun s => TlsGrows b.tls s.tls := by
  have hgrows : ∀ {s : State}, s.tls = b.tls → TlsGrows b.tls s.tls := fun h =>
    h ▸ .refl _
  unfold openNew
  refine .bind ((keeps_loadDeps w _ i b).mono (fun _ s₁ h₁ => ?_) fun _ => hgrows)
  refine .bind ((keeps_makeScope w h s₁).mono (fun _ s₂ h₂ => ?_) fun _ h' => hgrows (h'.trans h₁))
  refine .bind (.update (.get_bind ?_))
  have h₃ : (setLscope i h s₂).tls = b.tls := h₂.trans h₁
  generalize setLscope i h s₂ = s₃ at h₃ ⊢
  rw [← h₃] at hb ⊢
  refine .bind ((assignTls_spec (fun _ => False) hb (fun _ _ h => h) _).mono ?_ ?_)
  swap
  · exact fun _ hT => hT.grows
  rintro _ s₄ ⟨hT, hlaid, hle⟩
  have hE : Extends s₃.tls s₄.tls := ⟨hT.grows, hlaid, fun _ => hT.grows.reserve ▸ hle⟩
  refine .ite (fun _ => .throw hE.grows) fun _ => .get_bind (.set_bind ?_)
  have hrest : Keeps State.tls (do
      (orderInit h (s₄, [])).2.forM relocate
      ((← get).list.drop i).forM (finishObject w)
      pure (orderInit h (s₄, [])).2 : Loader (List Id)) :=
    .bind (.forM _ keeps_relocate) fun _ => .bind .get fun _ =>
      .bind (.forM _ fun d => .bind (keeps_protectRelro w d) fun _ =>
        .update fun _ => rfl) fun _ => .pure _
  refine (hrest _).mono (fun _ s h' => ?_) fun s h' => ?_
  · rw [h', tls_orderInit]
    exact hE
  · rw [h', tls_orderInit]
    exact hE.grows

theorem openObjects_tls (w : World) (file : Name) (noload : Bool) (caller : Id) {b : State}
    (hb : Laid b.tls) : Ends (openObjects w file noload caller) b
      (fun _ s => Extends b.tls s.tls) fun s => TlsGrows b.tls s.tls := by
  have hfile : Keeps State.tls (openFile w file noload caller) := by
    unfold openFile
    refine .ite (.bind .get fun s => ?_) (keeps_loadLibrary w _ _ _)
    cases findLoaded s file with
    | none => exact .throw _
    | some h => exact .pure h
  unfold openObjects
  refine .get_bind (.bind ((hfile b).mono (fun h s h₁ => ?_) fun _ h => h ▸ .refl _))
  have hrest : Ends (openRest w b.list.length h) s (fun _ s' => Extends b.tls s'.tls)
      fun s' => TlsGrows b.tls s'.tls := by
    rw [← h₁] at hb ⊢
    exact .get_bind (.ite (fun _ => openNew_tls w _ h hb) fun _ => .pure (.refl hb))
  refine .bind (hrest.mono (fun order s' hE => ?_) fun _ h => h)
  refine .bind ((keeps_makeScope w h s').mono (fun _ s'' h₂ => .pure ?_) fun _ h₂ => ?_)
  · exact h₂ ▸ hE
  · exact h₂ ▸ hE.grows

/-- A `dlopen`, from any state of the objects: what other calls and the code of the objects do to
them in between does not matter. -/
def Opens (t t' : Tls) : Prop :=
  ∃ (s : State) (w : World) (file : Name) (mode : Mode) (caller : Option Id),
    s.tls = t ∧ (openPart w file mode caller s).2.tls = t'

/-- **`dlopen` adds modules behind the others**, or is rolled back. -/
theorem Opens.extends (ht : Laid t) (h : Opens t t') : Extends t t' := by
  obtain ⟨s, w, file, mode, caller, rfl, rfl⟩ := h
  have hspec := openObjects_tls w file mode.noload (callerOf s caller) ht
  unfold openPart
  cases hx : openObjects w file mode.noload (callerOf s caller) s with
  | ok r s' =>
    change Extends s.tls s'.tls
    exact hspec.ok hx
  | error e s' =>
    obtain ⟨⟨extra, he, -⟩, ha, hr⟩ := hspec.error hx
    have hback : (rollback s.list.length s.tls.mods.length s.tls.offset s').tls = s.tls := by
      change Tls.mk (s'.tls.mods.take s.tls.mods.length) s.tls.offset s'.tls.align
        s'.tls.reserve = _
      rw [he, take_left, ha, hr]
    change Extends s.tls (rollback s.list.length s.tls.mods.length s.tls.offset s').tls
    rw [hback]
    exact .refl ht

theorem extends_of_opens (ht : Laid t) (h : Relation.ReflTransGen Opens t t') : Extends t t' := by
  induction h with
  | refl => exact .refl ht
  | tail _ h ih => exact ih.trans (h.extends ih.laid)

/-! ## The start of a program -/

theorem tls_foldl_orderInit : ∀ (l : List Id) (c : State × List Id),
    (l.foldl (fun c d => orderInit d c) c).1.tls = c.1.tls
  | [], _ => rfl
  | d :: l, c => (tls_foldl_orderInit l (orderInit d c)).trans (tls_orderInit d c)

/-- The storage once all libraries of the program `p` are there. -/
structure Begins (p : Program) (t : Tls) : Prop where
  mods : (startState p).tls.mods <+: t.mods
  align : t.align = (startState p).tls.align
  laid : Laid t
  offset : t.offset ≤ p.tlsCapacity

theorem Begins.setReserve {p : Program} (h : Begins p t) (r : UInt64) :
    Begins p { t with reserve := r } := by
  refine ⟨h.mods, h.align, ?_, h.offset⟩
  have hl : tlsLayout t = t := h.laid
  change ({ tlsLayout t with reserve := r } : Tls) = _
  rw [hl]

theorem dlsStart_tls (w : World) (p : Program) (s₀ : State) :
    Ends (dlsStart w p) s₀ (fun _ s => ∃ t, Begins p t ∧ s.tls =
      { t with reserve := min (roundUp (t.offset + dlopenTls) pageSize) p.tlsCapacity })
      fun _ => True := by
  have hlaid := (fresh_startState p).2
  unfold dlsStart
  generalize hst : startState p = st at hlaid ⊢
  refine .set_bind (.bind ((keeps_relocate self _).mono (fun _ s₁ h₁ => ?_) fun _ _ => trivial))
  refine .bind (.update (.bind ((keeps_loadDeps w _ 0 _).mono (fun _ s₂ h₂ => ?_)
    fun _ _ => trivial)))
  refine .bind (.update ?_)
  have h₃ : (listSelf s₂).tls = st.tls := (tls_listSelf s₂).trans (h₂.trans h₁)
  generalize listSelf s₂ = s₃ at h₃ ⊢
  rw [← h₃] at hlaid
  refine .bind ((assignTls_spec (fun _ => False) hlaid (fun _ _ h => h) _).mono ?_
    fun _ _ => trivial)
  rintro _ s₄ ⟨hT, hlaid₄, hle⟩
  obtain ⟨extra, he, -⟩ := hT.grows.mods
  have halign := hT.grows.align
  rw [h₃, ← hst] at he halign
  have hB : Begins p s₄.tls := ⟨⟨extra, he.symm⟩, halign, hlaid₄, hle⟩
  refine .get_bind (.set_bind ?_)
  have h₅ :=
    (tls_foldl_orderInit s₄.list (orderInit app (s₄, []))).trans (tls_orderInit app (s₄, []))
  generalize s₄.list.foldl (fun c d => orderInit d c) (orderInit app (s₄, [])) = c at h₅ ⊢
  refine Ends.bind ((Keeps.forM _ keeps_relocate c.1).mono (fun _ s₆ h₆ => ?_) fun _ _ => trivial)
  refine Ends.get_bind (Ends.bind ((Keeps.forM _ (keeps_protectRelro w) s₆).mono (fun _ s₇ h₇ => ?_)
    fun _ _ => trivial))
  rw [← (h₇.trans (h₆.trans h₅) : s₇.tls = s₄.tls)] at hB
  exact .bind (.update (.pure ⟨s₇.tls, hB, rfl⟩))

/-- **The space of every thread holds the blocks** of the program and its libraries. -/
theorem start_tls {w : World} {p : Program} {s : State} (h : start w p = some s)
    (hcap : p.tlsCapacity.toNat + 266240 ≤ 2 ^ 64) :
    Begins p s.tls ∧ s.tls.offset ≤ s.tls.reserve ∧ s.tls.reserve ≤ p.tlsCapacity := by
  unfold start at h
  cases hx : dlsStart w p {} with
  | error e s₀ =>
    rw [hx] at h
    cases h
  | ok order s₀ =>
    rw [hx] at h
    obtain ⟨t, hB, ht⟩ := (dlsStart_tls w p {}).ok hx
    have htls : s.tls = s₀.tls := by
      rw [← Option.some.inj h, inits, foldl_runInit]
    rw [htls, ht]
    have hle := UInt64.le_iff_toNat_le.mp hB.offset
    have hdl : dlopenTls.toNat = 262144 := rfl
    have hsum := toNat_sum (x := t.offset) (y := dlopenTls) (by omega)
    have hpage : pageSize.toNat = 4096 := rfl
    have hceil := ceilTo_spec (t.offset + dlopenTls).toNat (show 0 < pageSize.toNat by decide)
    have hup := toNat_roundUp (x := t.offset + dlopenTls) (a := pageSize) ⟨12, rfl⟩ (by omega)
    generalize roundUp (t.offset + dlopenTls) pageSize = want at hup ⊢
    refine ⟨hB.setReserve _, ?_, ?_⟩
    · change t.offset ≤ if want ≤ p.tlsCapacity then want else p.tlsCapacity
      split_ifs
      · rw [UInt64.le_iff_toNat_le, hup]
        omega
      · exact hB.offset
    · change (if want ≤ p.tlsCapacity then want else p.tlsCapacity) ≤ _
      split_ifs with hmin
      · exact hmin
      · exact UInt64.le_refl _

/-! ## Threads -/

def roundDown (x a : UInt64) : UInt64 := x &&& ~~~(a - 1)

/-- `__setup_tcb`: the size of the mapping of the main thread, with `off` bytes of storage and a
control block of `tcb` bytes. -/
def setupSize (off tcb align : UInt64) : UInt64 := roundUp (off + tcb + align) pageSize

/-- `__setup_tcb`: the thread pointer in the mapping at `m`. -/
def setupTp (m off align : UInt64) : UInt64 := roundUp (m + off) align

/-- `pthread_create`: the size of the mapping of a thread. -/
def createSize (guard stack tls tcb align : UInt64) : UInt64 :=
  guard + stack + roundUp (tls + tcb + align) pageSize

/-- `pthread_create`: the thread pointer in the mapping at `map`. -/
def createTp (map size tcb align : UInt64) : UInt64 := roundDown (map + size - tcb) align

/-- The thread pointer is aligned, with `tls` bytes between `lo` and it and the control block
between it and `hi`. -/
structure Reserves (tp lo hi tls tcb align : ℕ) : Prop where
  aligned : align ∣ tp
  space : lo + tls ≤ tp
  block : tp + tcb ≤ hi

theorem toNat_top (x tcb align : UInt64)
    (h : ceilTo (x.toNat + tcb.toNat + align.toNat) 4096 < 2 ^ 64) :
    (roundUp (x + tcb + align) pageSize).toNat =
      ceilTo (x.toNat + tcb.toNat + align.toNat) 4096 := by
  have hc := ceilTo_spec (x.toNat + tcb.toNat + align.toNat) (show 0 < 4096 by decide)
  have hxt := toNat_sum (x := x) (y := tcb) (by omega)
  have hsum : (x + tcb + align).toNat = x.toNat + tcb.toNat + align.toNat := by
    rw [toNat_sum (by omega), hxt]
  rw [toNat_roundUp ⟨12, rfl⟩ (by rw [hsum]; exact h), hsum]
  rfl

theorem reserves_setup {m off tcb align : UInt64} (ha : IsPow2 align)
    (h : m.toNat + ceilTo (off.toNat + tcb.toNat + align.toNat) 4096 < 2 ^ 64) :
    Reserves (setupTp m off align).toNat m.toNat (m + setupSize off tcb align).toNat off.toNat
      tcb.toNat align.toNat := by
  have hc := ceilTo_spec (off.toNat + tcb.toNat + align.toNat) (show 0 < 4096 by decide)
  have hsum := toNat_sum (x := m) (y := off) (by omega)
  have hceil := ceilTo_spec (m.toNat + off.toNat) ha.pos
  have htp : (setupTp m off align).toNat = ceilTo (m.toNat + off.toNat) align.toNat := by
    rw [setupTp, toNat_roundUp ha (by rw [hsum]; omega), hsum]
  have hsize : (m + setupSize off tcb align).toNat =
      m.toNat + ceilTo (off.toNat + tcb.toNat + align.toNat) 4096 := by
    have htop := toNat_top off tcb align (by omega)
    rw [setupSize, toNat_sum (by omega), htop]
  rw [htp, hsize]
  exact ⟨hceil.2.2, by omega, by omega⟩

theorem reserves_create {map guard stack tls tcb align : UInt64} (ha : IsPow2 align)
    (h : map.toNat + guard.toNat + stack.toNat +
      ceilTo (tls.toNat + tcb.toNat + align.toNat) 4096 < 2 ^ 64) :
    Reserves (createTp map (createSize guard stack tls tcb align) tcb align).toNat
      (map + guard + stack).toNat (map + createSize guard stack tls tcb align).toNat tls.toNat
      tcb.toNat align.toNat := by
  have hc := ceilTo_spec (tls.toNat + tcb.toNat + align.toNat) (show 0 < 4096 by decide)
  have htop := toNat_top tls tcb align (by omega)
  generalize ceilTo (tls.toNat + tcb.toNat + align.toNat) 4096 = c at h hc htop
  have hlo : (map + guard + stack).toNat = map.toNat + guard.toNat + stack.toNat := by
    have hmg := toNat_sum (x := map) (y := guard) (by omega)
    rw [toNat_sum (by omega), hmg]
  have hsize : (map + createSize guard stack tls tcb align).toNat =
      map.toNat + guard.toNat + stack.toNat + c := by
    rw [createSize, UInt64.toNat_add, UInt64.toNat_add, UInt64.toNat_add, htop]
    omega
  have hx : (map + createSize guard stack tls tcb align - tcb).toNat =
      map.toNat + guard.toNat + stack.toNat + c - tcb.toNat := by
    rw [UInt64.toNat_sub_of_le _ _ (UInt64.le_iff_toNat_le.mpr (by omega)), hsize]
  rw [createTp, roundDown, toNat_mask ha, hx, hlo, hsize]
  have hdiv := div_add_mod (map.toNat + guard.toNat + stack.toNat + c - tcb.toNat) align.toNat
  have hmod := mod_lt (map.toNat + guard.toNat + stack.toNat + c - tcb.toNat) ha.pos
  rw [mul_comm] at hdiv
  exact ⟨dvd_mul_left _ _, by omega, by omega⟩

/-! ## All programs -/

/-- **Static thread-local storage is sound and stable.** Let a program start, and let any calls of
`dlopen` follow. If the exact total of the modules fits, the layout is sound; no module that is
there changes its place, later ones included; the alignment of the thread pointers stays the one
that the main thread was set up with; and all blocks lie in the space that every thread reserves. -/
theorem static_tls_sound {w : World} {p : Program} {s : State} (hstart : start w p = some s)
    (hopens : Relation.ReflTransGen Opens s.tls t) (hpow : ∀ m ∈ t.mods, IsPow2 m.align)
    (hexact : exactEnd 0 t.mods < 2 ^ 64) (hcap : p.tlsCapacity.toNat + 266240 ≤ 2 ^ 64) :
    Sound t ∧
    ((startState p).tls.mods <+: s.tls.mods ∧ s.tls.mods <+: t.mods ∧
      ∀ t', Relation.ReflTransGen Opens t t' → t.mods <+: t'.mods) ∧
    (t.align = (startState p).tls.align ∧ t.reserve = s.tls.reserve ∧ t.offset ≤ t.reserve ∧
      t.reserve ≤ p.tlsCapacity) ∧
    (∀ m tcb : UInt64,
      m.toNat + ceilTo (p.tlsCapacity.toNat + tcb.toNat + t.align.toNat) 4096 < 2 ^ 64 →
      Reserves (setupTp m p.tlsCapacity t.align).toNat m.toNat
        (m + setupSize p.tlsCapacity tcb t.align).toNat p.tlsCapacity.toNat tcb.toNat
        t.align.toNat) ∧
    ∀ map guard stack tcb : UInt64, map.toNat + guard.toNat + stack.toNat +
        ceilTo (t.reserve.toNat + tcb.toNat + t.align.toNat) 4096 < 2 ^ 64 →
      Reserves (createTp map (createSize guard stack t.reserve tcb t.align) tcb t.align).toNat
        (map + guard + stack).toNat (map + createSize guard stack t.reserve tcb t.align).toNat
        t.reserve.toNat tcb.toNat t.align.toNat := by
  obtain ⟨hB, hfits, hle⟩ := start_tls hstart hcap
  have hE := extends_of_opens hB.laid hopens
  have halign : IsPow2 t.align := by
    have ha : t.mods.foldl (fun a m => if m.align > a then m.align else a) 64 = t.align :=
      congrArg Tls.align hE.laid
    exact ha ▸ (isPow2_foldl_align t.mods hpow ⟨6, rfl⟩).1
  have hprefix : ∀ {t t' : Tls}, Extends t t' → t.mods <+: t'.mods := fun h =>
    h.grows.mods.imp fun _ h => h.1.symm
  refine ⟨sound_of_laid hE.laid hpow hexact, ⟨hB.mods, hprefix hE, fun t' h' => ?_⟩,
    ⟨hE.grows.align.trans hB.align, hE.grows.reserve, hE.fits hfits, hE.grows.reserve ▸ hle⟩,
    fun m tcb h => reserves_setup halign h, fun map guard stack tcb h => reserves_create halign h⟩
  exact hprefix (extends_of_opens hE.laid h')

/-! ## Two programs -/

/-- Two libraries with storage: `libp` needs `libq`, whose block has the size `n`. -/
def tlsWorld (n : UInt64) : World where
  find f _ _ :=
    if f = [112] then some
      { path := [112], dev := 1, ino := 1
        image := .ok { needed := [[113]], tls := [{ memsz := 32, align := 16 }] } }
    else if f = [113] then some
      { path := [113], dev := 1, ino := 2, image := .ok { tls := [{ memsz := n, align := 16 }] } }
    else none
  room := 10

/-- The storage after `dlopen("libp")` in a program without any of its own. -/
def tlsOpened (n : UInt64) : Tls := (openPart (tlsWorld n) [112] {} none plainStart).2.tls

theorem opens_tlsOpened (n : UInt64) : Opens plainStart.tls (tlsOpened n) :=
  ⟨plainStart, tlsWorld n, [112], {}, none, rfl, rfl⟩

theorem tlsOpened_mods : (tlsOpened 40).mods = [⟨32, 16, 32⟩, ⟨40, 16, 80⟩] := by decide

theorem static_tls_sound_two :
    Sound (tlsOpened 40) ∧ (tlsOpened 40).offset ≤ (tlsOpened 40).reserve :=
  have h := static_tls_sound (w := pluginWorld) (p := plainProgram) (s := plainStart) rfl
    (.single (opens_tlsOpened 40))
    (by
      rw [tlsOpened_mods]
      exact forall_mem_cons.mpr ⟨⟨4, rfl⟩, forall_mem_cons.mpr ⟨⟨4, rfl⟩, forall_mem_nil _⟩⟩)
    (by rw [tlsOpened_mods]; decide) (by decide)
  ⟨h.1, h.2.2.1.2.2.1⟩

/-- **A size that wraps**: `assign_tls` accepts it with all that `open_objects` checks, and `libq`
has a block of nearly 2⁶⁴ bytes that starts 16 bytes below the thread pointer. -/
theorem tls_size_wraps :
    (∃ r s, openObjects (tlsWorld (0 - 16)) [112] false app plainStart = .ok r s) ∧
    Opens plainStart.tls (tlsOpened (0 - 16)) ∧
    (∀ m ∈ (tlsOpened (0 - 16)).mods, IsPow2 m.align) ∧ ¬ Sound (tlsOpened (0 - 16)) := by
  have hmods : (tlsOpened (0 - 16)).mods = [⟨32, 16, 32⟩, ⟨0 - 16, 16, 16⟩] := by decide
  refine ⟨⟨_, _, rfl⟩, opens_tlsOpened _, ?_, fun h => ?_⟩
  · rw [hmods]
    simp only [forall_mem_cons]
    exact ⟨⟨4, rfl⟩, ⟨4, rfl⟩, forall_mem_nil _⟩
  · have hlt := (h.below ⟨0 - 16, 16, 16⟩ (by rw [hmods]; simp) 0 0 ⟨by decide, by decide⟩).2
    exact absurd hlt (by decide)

end Citadel.Ldso
