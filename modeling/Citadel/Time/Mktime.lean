import Citadel.Time.Rule

/-!
# `mktime` and `localtime_r`

`mktime` looks at the types in effect within two days of the local time, read as UTC. The time that
the struct was made from is at most 25 hours away from that, and so it lies between two of these
looks that are a day apart; a period that lasts a day cannot pass between them (`period_sampled`).
As the kind tells the type of a rule, `mktime` finds the offset of that time (`wantedOffset_eq`).

* `mktime_localtime`: `mktime` gives back the time that `localtime_r` has broken down.
-/

namespace Citadel.Time

open Citadel.Lib.CInt Citadel.Lib.Calendar List Int

/-! ## Periods -/

variable {t : ℤ}

theorem exists_since {p : ℤ → Prop} {s : ℤ} (hst : s ≤ t) (hs : ¬ p s) (ht : p t) :
    ∃ a, s < a ∧ a ≤ t ∧ ¬ p (a - 1) ∧ ∀ u, a ≤ u → u ≤ t → p u := by
  induction t, hst using Int.leInduction with
  | base => exact absurd ht hs
  | succ t hst ih =>
    by_cases hp : p t
    · obtain ⟨a, h1, h2, h3, h4⟩ := ih hp
      refine ⟨a, h1, by omega, h3, fun u hu hut => ?_⟩
      rcases (by omega : u ≤ t ∨ u = t + 1) with h | rfl
      · exact h4 u hu h
      · exact ht
    · refine ⟨t + 1, by omega, le_rfl, by rwa [Int.add_sub_cancel], fun u hu hut => ?_⟩
      obtain rfl : u = t + 1 := by omega
      exact ht

theorem exists_until {p : ℤ → Prop} {e : ℤ} (hte : t ≤ e) (ht : p t) (he : ¬ p e) :
    ∃ b, t < b ∧ b ≤ e ∧ ¬ p b ∧ ∀ u, t ≤ u → u < b → p u := by
  obtain ⟨a, h1, h2, h3, h4⟩ := exists_since (p := fun u => p (-u)) (neg_le_neg hte)
    (by rwa [neg_neg]) (by rwa [neg_neg])
  refine ⟨-(a - 1), by omega, by omega, h3, fun u hu hub => ?_⟩
  have := h4 (-u) (by omega) (by omega)
  rwa [neg_neg] at this

/-- Every period between two changes of the local time type lasts a day. Periods are not asked for
close to the ends of the type of times. -/
def PeriodsLast (lookup : ℤ → Option LocalType) : Prop :=
  ∀ (a b : ℤ) (before during after : LocalType), -2 ^ 61 < a → a < b → b < 2 ^ 61 →
    lookup (a - 1) = some before → before ≠ during →
    (∀ u, a ≤ u → u < b → lookup u = some during) →
    lookup b = some after → after ≠ during → 86400 ≤ b - a

section Local

variable {lookup : ℤ → Option LocalType}

variable {l : LocalType} {L : ℤ}

/-- **Of two looks that are a day apart, one sees the type of a time between them.** -/
theorem period_sampled (hp : PeriodsLast lookup) {s t : ℤ} (hs : s ≤ t) (ht : t ≤ s + 86400)
    (hr : -2 ^ 61 ≤ s ∧ s + 86400 < 2 ^ 61)
    (hdef : ∀ u, s ≤ u → u ≤ s + 86400 → ∃ l, lookup u = some l)
    (hl : lookup t = some l) : lookup s = some l ∨ lookup (s + 86400) = some l := by
  by_contra hno
  rw [not_or] at hno
  obtain ⟨a, h1, h2, h3, h4⟩ := exists_since (p := fun u => lookup u = some l) hs hno.1 hl
  obtain ⟨b, h5, h6, h7, h8⟩ := exists_until (p := fun u => lookup u = some l) ht hl hno.2
  obtain ⟨before, hbefore⟩ := hdef (a - 1) (by omega) (by omega)
  obtain ⟨after, hafter⟩ := hdef b (by omega) h6
  have hlong : 86400 ≤ b - a := by
    refine hp a b before l after (by omega) (by omega) (by omega) hbefore ?_ ?_ hafter ?_
    · rintro rfl
      exact h3 hbefore
    · intro u hu hub
      rcases (by omega : u ≤ t ∨ t ≤ u) with h | h
      · exact h4 u hu h
      · exact h8 u h hub
    · rintro rfl
      exact h7 hafter
  omega

/-! ## The search of `mktime` -/

theorem mem_looks {k : ℤ} : k ∈ [-2, -1, 0, 1, 2] ↔ -2 ≤ k ∧ k ≤ 2 := by
  simp only [mem_cons, not_mem_nil, or_false]
  omega

theorem nearTypes_eq (hL : -2 ^ 61 ≤ L ∧ L ≤ 2 ^ 61) (ks : List ℤ)
    (hks : ∀ k ∈ ks, -2 ≤ k ∧ k ≤ 2) (ty : List (ℤ × ℤ))
    (hdef : ∀ k ∈ ks, ∃ l, lookup (L + k * 86400) = some l) :
    ∃ ty', nearTypes lookup L ks ty = some ty' ∧ ∀ x, x ∈ ty' ↔ x ∈ ty ∨
      ∃ k ∈ ks, ∃ l, lookup (L + k * 86400) = some l ∧ x = (l.off, l.isdst) := by
  induction ks generalizing ty with
  | nil => exact ⟨ty, rfl, fun x => by simp⟩
  | cons k ks ih =>
    have hk := hks k mem_cons_self
    obtain ⟨l, hl⟩ := hdef k mem_cons_self
    obtain ⟨ty', hty', hmem⟩ := ih (fun k hk => hks k (mem_cons_of_mem _ hk))
      (if (l.off, l.isdst) ∈ ty then ty else ty ++ [(l.off, l.isdst)])
      (fun k hk => hdef k (mem_cons_of_mem _ hk))
    refine ⟨ty', ?_, fun x => ?_⟩
    · rw [nearTypes, llong_bind (by omega), llong_bind (by omega), hl, some_bind, hty']
    · have hadd : x ∈ (if (l.off, l.isdst) ∈ ty then ty else ty ++ [(l.off, l.isdst)]) ↔
          x ∈ ty ∨ x = (l.off, l.isdst) := by
        split_ifs with h
        · exact ⟨.inl, fun hx => hx.elim id (fun hx => hx ▸ h)⟩
        · rw [mem_append, mem_singleton]
      rw [hmem, hadd, or_assoc]
      refine or_congr_right ?_
      constructor
      · rintro (rfl | ⟨k', hk', l', hl', rfl⟩)
        · exact ⟨k, mem_cons_self, l, hl, rfl⟩
        · exact ⟨k', mem_cons_of_mem _ hk', l', hl', rfl⟩
      · rintro ⟨k', hk', l', hl', rfl⟩
        rcases mem_cons.mp hk' with rfl | hk'
        · rw [hl] at hl'
          cases hl'
          exact .inl rfl
        · exact .inr ⟨k', hk', l', hl', rfl⟩

/-- If the kind tells the offset, the search ends with the type that is consistent. -/
theorem seekType_eq {want o : ℤ} (hL : -2 ^ 62 ≤ L - o ∧ L - o ≤ 2 ^ 62)
    (hl : lookup (L - o) = some l) (ho : l.off = o) {ty : List (ℤ × ℤ)}
    (hkind : ∀ x ∈ ty, x.2 = want → x.1 = o) (hmem : (o, want) ∈ ty) (off : ℤ) :
    seekType lookup L want ty off 0 = some (o, 2) := by
  induction ty with
  | nil => cases hmem
  | cons x ty ih =>
    obtain ⟨o', dst⟩ := x
    by_cases hdst : dst = want
    · obtain rfl : o' = o := hkind _ mem_cons_self hdst
      rw [seekType, if_pos (by decide), if_neg (not_not_intro hdst), llong_bind (by omega), hl,
        some_bind, if_pos (.inl ho), if_pos ho]
      -- the loop ends with a consistent type
      cases ty with
      | nil | cons y ty => rfl
    · rw [seekType, if_pos (by decide), if_pos hdst]
      refine ih (fun y hy => hkind y (mem_cons_of_mem _ hy)) ?_
      rcases mem_cons.mp hmem with h | h
      · exact absurd (congrArg Prod.snd h).symm hdst
      · exact h

theorem wantedOffset_eq {want o : ℤ} (hL : -2 ^ 62 ≤ L - o ∧ L - o ≤ 2 ^ 62)
    (hl : lookup (L - o) = some l) (ho : l.off = o) {ty : List (ℤ × ℤ)}
    (hkind : ∀ x ∈ ty, x.2 = want → x.1 = o) (hmem : (o, want) ∈ ty) :
    wantedOffset lookup L want ty = some o := by
  rw [wantedOffset, seekType_eq hL hl ho hkind hmem, some_bind]
  rfl

theorem localtimeR_ok {tm : Tm} (h : localtimeR lookup t = some (.ok tm)) :
    (-2 ^ 60 ≤ t ∧ t ≤ 2 ^ 60) ∧ ∃ l, lookup t = some l ∧
      ∃ f, secsToTm (t + l.off) = some (.ok f) ∧ (-2 ^ 63 ≤ t + l.off ∧ t + l.off < 2 ^ 63) ∧
        tm = { f with isdst := l.isdst, gmtoff := l.off, zone := l.name } := by
  unfold localtimeR at h
  by_cases hr : t < -2 ^ 60 ∨ t > 2 ^ 60
  · rw [if_pos hr] at h
    cases h
  rw [if_neg hr] at h
  refine ⟨by omega, ?_⟩
  obtain ⟨l, hl, h⟩ := Option.bind_eq_some_iff.mp h
  obtain ⟨x, hx, h⟩ := Option.bind_eq_some_iff.mp h
  obtain ⟨res, hres, h⟩ := Option.bind_eq_some_iff.mp h
  unfold llong at hx
  split_ifs at hx with hrange
  cases hx
  cases res with
  | error e => cases h
  | ok f =>
    cases h
    exact ⟨l, hl, f, hres, hrange, rfl⟩

end Local

/-- **`mktime` inverts `localtime_r`**, in a zone with a rule that `parse_posix` accepts and in
which every period between two changes lasts a day. -/
theorem mktime_localtime {s : List UInt8} {r : PosixRule} (hr : parsePosix s = some r)
    (hp : PeriodsLast (ruleLookup r)) {t : ℤ} {tm : Tm}
    (h : localtimeR (ruleLookup r) t = some (.ok tm)) :
    mktime (ruleLookup r) tm = some (.ok (t, tm)) := by
  have hok := parsePosix_ok hr
  have hstd := hok.stdOff
  have hdst := hok.dstOff
  obtain ⟨ht, l, hl, f, hf, hrange, htm⟩ := localtimeR_ok h
  have htype : ∀ {u : ℤ} {l : LocalType}, -2 ^ 61 ≤ u ∧ u ≤ 2 ^ 61 → ruleLookup r u = some l →
      l = r.stdType ∨ l = r.dstType := by
    intro u l hu hl
    rcases ruleLookup_eq hok hu with h | h <;> rw [h] at hl <;> cases hl
    · exact .inl rfl
    · exact .inr rfl
  have hdef : ∀ u : ℤ, -2 ^ 61 ≤ u ∧ u ≤ 2 ^ 61 → ∃ l, ruleLookup r u = some l := by
    intro u hu
    rcases ruleLookup_eq hok hu with h | h
    · exact ⟨_, h⟩
    · exact ⟨_, h⟩
  have hoff : -86400 ≤ l.off ∧ l.off ≤ 90000 := by
    rcases htype (by omega) hl with rfl | rfl
    · exact ⟨hstd.1, hstd.2.trans (by decide)⟩
    · exact hdst
  obtain ⟨L, hL⟩ : ∃ L, L = t + l.off := ⟨_, rfl⟩
  -- the struct as seconds
  have hsecs : tmToSecs tm = some (some L) := by
    obtain ⟨date, hnum, hsec⟩ := secsToTm_eq hrange
    rw [hf] at hsec
    split_ifs at hsec with hy
    · cases hsec
      rw [tmToSecs_eq (s := (t + l.off) % 86400) (by omega) hy (by rw [htm]), hnum, hL]
      congr 2
      omega
    · cases hsec
  -- the type is seen
  obtain ⟨ty, hty, hmem⟩ := @nearTypes_eq (ruleLookup r) L (by omega) [-2, -1, 0, 1, 2]
    (fun k hk => mem_looks.mp hk) [] (fun k hk => hdef _ (by have := mem_looks.mp hk; omega))
  have hlook : ∀ k : ℤ, -2 ≤ k → k ≤ 1 → L + k * 86400 ≤ t → t ≤ L + k * 86400 + 86400 →
      (l.off, l.isdst) ∈ ty := by
    intro k hk2 hk1 h1 h2
    refine (hmem _).mpr (.inr ?_)
    rcases period_sampled hp h1 h2 (by omega) (fun u _ _ => hdef u (by omega)) hl with h | h
    · exact ⟨k, mem_looks.mpr ⟨hk2, by omega⟩, l, h, rfl⟩
    · refine ⟨k + 1, mem_looks.mpr ⟨by omega, by omega⟩, l, ?_, rfl⟩
      rwa [add_mul, one_mul, ← add_assoc]
  have hseen : (l.off, l.isdst) ∈ ty := by
    rcases (by omega : t ≤ L - 86400 ∨ (L - 86400 ≤ t ∧ t ≤ L) ∨ L ≤ t) with h | h | h
    · exact hlook (-2) (by decide) (by decide) (by omega) (by omega)
    · exact hlook (-1) (by decide) (by decide) (by omega) (by omega)
    · exact hlook 0 (by decide) (by decide) (by omega) (by omega)
  -- the kind tells the offset
  have hkind : ∀ x ∈ ty, x.2 = l.isdst → x.1 = l.off := by
    intro x hx hx2
    rcases (hmem x).mp hx with h | ⟨k, hk, l', hl', rfl⟩
    · cases h
    · have hk' := mem_looks.mp hk
      rcases htype (by omega) hl with rfl | rfl <;> rcases htype (by omega) hl' with rfl | rfl
      · rfl
      · cases hx2
      · cases hx2
      · rfl
  have hread : readOffset (ruleLookup r) L tm.isdst ty = some l.off := by
    have hisdst : tm.isdst = l.isdst := by rw [htm]
    have hwant : l.isdst ≥ 0 ∧ (if l.isdst > 0 then 1 else 0) = l.isdst := by
      rcases htype (by omega) hl with rfl | rfl
      · exact ⟨le_rfl, rfl⟩
      · exact ⟨Int.one_nonneg, rfl⟩
    rw [readOffset, hisdst, if_pos hwant.1, hwant.2]
    exact wantedOffset_eq (by omega) (by rwa [hL, Int.add_sub_cancel]) rfl hkind hseen
  unfold mktime
  rw [hsecs, some_bind]
  dsimp only
  rw [hty, some_bind, hread, some_bind, llong_bind (by omega), hL, Int.add_sub_cancel, h, some_bind]
  rfl

/-! ## A zone with DST -/

/-- `STD0DST,J10/0,J50/0`. -/
def winter : PosixRule :=
  ⟨[83, 84, 68], [68, 83, 84], 0, 3600, true, ⟨.J, 10, 0, 0, 0, 0⟩, ⟨.J, 50, 0, 0, 0, 0⟩⟩

theorem winter_parsed :
    parsePosix [83, 84, 68, 48, 68, 83, 84, 44, 74, 49, 48, 47, 48, 44, 74, 53, 48, 47, 48] =
      some winter := by decide

/-- DST is in effect from the 10th to the 50th day of a year from 1970 on. -/
def InWinter (t : ℤ) : Prop :=
  ∃ y, 1970 ≤ y ∧ yearStart y * 86400 + 777600 ≤ t ∧ t < yearStart y * 86400 + 4230000

theorem winter_ruleTime (y : ℤ) :
    ruleTime y winter.start = some 777600 ∧ ruleTime y winter.stop = some 4233600 := by
  constructor
  · simp [ruleTime, winter, cint, llong]
  · simp [ruleTime, winter, cint, llong]

theorem yearStart_mono {y y' : ℤ} (h : y < y') : yearStart y + 365 ≤ yearStart y' := by
  have h1 := yearStart_lt h
  unfold yearLength at h1
  split_ifs at h1 <;> omega

theorem yearStart_cases (y z : ℤ) :
    y = z ∨ yearStart y + 365 ≤ yearStart z ∨ yearStart z + 365 ≤ yearStart y := by
  rcases lt_trichotomy y z with h | h | h
  · exact .inr (.inl (yearStart_mono h))
  · exact .inl h
  · exact .inr (.inr (yearStart_mono h))

theorem winter_lookup (ht : -2 ^ 61 ≤ t ∧ t ≤ 2 ^ 61) :
    (InWinter t ∧ ruleLookup winter t = some winter.dstType) ∨
      (¬ InWinter t ∧ ruleLookup winter t = some winter.stdType) := by
  obtain ⟨y, y', a, b, hlo, hhi, hy', ha, hb, hrun⟩ :=
    ruleLookup_run (parsePosix_ok winter_parsed) rfl (t := t) (by omega)
  rw [(winter_ruleTime y').1] at ha
  rw [(winter_ruleTime y').2] at hb
  cases ha
  cases hb
  have hstd : winter.stdOff = 0 := rfl
  have hdst : winter.dstOff = 3600 := rfl
  rw [hstd, add_zero] at hlo hhi
  rw [hstd, hdst] at hrun
  -- the year of the time is the only one whose days can matter
  have hin : InWinter t ↔
      1970 ≤ y ∧ yearStart y * 86400 + 777600 ≤ t ∧ t < yearStart y * 86400 + 4230000 := by
    constructor
    · rintro ⟨z, hz, h1, h2⟩
      have hzy : z = y := by
        by_contra hne
        rcases lt_or_gt_of_ne hne with h | h
        · have := yearStart_mono h
          omega
        · rcases (by omega : y + 1 = z ∨ y + 1 < z) with rfl | h
          · omega
          · have := yearStart_mono h
            omega
      exact hzy ▸ ⟨hz, h1, h2⟩
    · intro h
      exact ⟨y, h⟩
  have hdstIff : inDst y t (yearStart y' * 86400 + 777600 - 0)
      (yearStart y' * 86400 + 4233600 - 3600) ↔ InWinter t := by
    rw [hin, hy', inDst]
    by_cases hpre : y < 1970
    · rw [if_pos hpre, if_pos hpre]
      omega
    · rw [if_neg hpre, if_neg hpre, if_pos (by omega)]
      omega
  by_cases hw : InWinter t
  · rw [if_pos (hdstIff.mpr hw)] at hrun
    exact .inl ⟨hw, hrun⟩
  · rw [if_neg (mt hdstIff.mp hw)] at hrun
    exact .inr ⟨hw, hrun⟩

theorem winter_periods : PeriodsLast (ruleLookup winter) := by
  intro a b before during after ha hab hb hbefore hne hduring hafter hne'
  have hlook : ∀ {u v : ℤ} {l l' : LocalType}, -2 ^ 61 ≤ u ∧ u ≤ 2 ^ 61 → -2 ^ 61 ≤ v ∧ v ≤ 2 ^ 61 →
      ruleLookup winter u = some l → ruleLookup winter v = some l' → l ≠ l' →
      ¬ (InWinter u ↔ InWinter v) := by
    intro u v l l' hu hv hl hl' hne hiff
    rcases winter_lookup hu with ⟨h1, h⟩ | ⟨h1, h⟩ <;> rw [hl] at h <;> cases h <;>
      rcases winter_lookup hv with ⟨h2, h⟩ | ⟨h2, h⟩ <;> rw [hl'] at h <;> cases h <;> tauto
  -- where the type changes
  have hswitch : ∀ {u}, ¬ (InWinter (u - 1) ↔ InWinter u) → ∃ y,
      u = yearStart y * 86400 + 777600 ∨ u = yearStart y * 86400 + 4230000 := by
    intro u hu
    by_cases hw : InWinter u
    · obtain ⟨y, hy, h1, h2⟩ := id hw
      refine ⟨y, .inl (by_contra fun h => ?_)⟩
      exact hu (iff_of_true ⟨y, hy, by omega, by omega⟩ hw)
    · obtain ⟨y, hy, h1, h2⟩ := not_not.mp fun h => hu (iff_of_false h hw)
      exact ⟨y, .inr (by_contra fun h => hw ⟨y, hy, by omega, by omega⟩)⟩
  have h0 := hduring a le_rfl hab
  have h1 := hduring (b - 1) (by omega) (by omega)
  obtain ⟨y, hy⟩ := hswitch (hlook (by omega) (by omega) hbefore h0 hne)
  obtain ⟨z, hz⟩ := hswitch (hlook (by omega) (by omega) h1 hafter hne'.symm)
  rcases yearStart_cases y z with rfl | h | h <;> omega

/-- The two readings of an hour that is there twice, at the end of DST in 1970. -/
theorem mktime_localtime_ambiguous :
    ∃ tm tm' : Tm, localtimeR (ruleLookup winter) 4228200 = some (.ok tm) ∧
      localtimeR (ruleLookup winter) 4231800 = some (.ok tm') ∧ tm.toFields = tm'.toFields ∧
      mktime (ruleLookup winter) tm = some (.ok (4228200, tm)) ∧
      mktime (ruleLookup winter) tm' = some (.ok (4231800, tm')) :=
  ⟨_, _, rfl, rfl, rfl, mktime_localtime winter_parsed winter_periods rfl,
    mktime_localtime winter_parsed winter_periods rfl⟩

end Citadel.Time
