import Citadel.Path.FileSystem
import Mathlib.Data.List.GetD

/-!
# `realpath`

The model of `src/realpath.c`. The resolved prefix `out` and the rest of the path are strings of
bytes, as in the source; the file system is seen through `readlink`, `access` and `getcwd` only.

* `resolveLoop_eq`: the loop is pathname resolution without the check of what stands in front of a
  slash, `.` and `..`.
* `realpath_eq_ok`: when `realpath` succeeds, and with which path.
* `realpath_correct`: on which paths that is pathname resolution as POSIX has it.
-/

namespace Citadel.Path

open Citadel.Lib.Pieces List

def MAXLINKS : ℕ := 40

/-- The loop that shortens `out` by its last name: the length it ends with. -/
def backLoop (out : List UInt8) : ℕ → ℕ
  | 0 => 0
  | ol + 1 => if ol + 1 > 1 ∧ out.getD ol 0 ≠ 0x2f then backLoop out ol else ol + 1

def back (out : List UInt8) : List UInt8 :=
  let ol := backLoop out out.length
  out.take (if ol > 1 then ol - 1 else ol)

/-- The body of the loop for the component `c`, with the path behind it. -/
def component (fs : FileSystem) (out c p : List UInt8) : Next (List UInt8) (Stop (List UInt8)) :=
  if c = [0x2e] then .go out
  else if c = [0x2e, 0x2e] then .go (back out)
  else if PATH_MAX ≤ out.length + (if out.length > 1 then 1 else 0) + c.length then
    .stop (.fail .ENAMETOOLONG)
  else
    let next := (if out.length > 1 then out ++ [0x2f] else out) ++ c
    match readlink fs next (PATH_MAX - 1) with
    -- it exists and is no link
    | .error .EINVAL => .go next
    | .error e => .stop (.fail e)
    | .ok link => .stop (.link out link p)

/-- The loop up to the next link; slashes are skipped. -/
def components (fs : FileSystem) : Reader UInt8 (List UInt8) (Stop (List UInt8)) where
  sepStep := .go
  piece := component fs
  finish := .arrive

/-- The loop of `realpath`, with the links that may still be followed. -/
def resolveLoop (fs : FileSystem) : ℕ → List UInt8 → List UInt8 → Except Errno (List UInt8)
  | 0, out, p => (read (components fs) 0x2f out p).result fun _ _ _ => .error .ELOOP
  | links + 1, out, p => (read (components fs) 0x2f out p).result fun saved link p =>
    if link.length + p.length + 1 > PATH_MAX then .error .ENAMETOOLONG
    else resolveLoop fs links (if link.head? = some 0x2f then [0x2f] else saved) (link ++ p)

/-- The check that a trailing slash asks for. -/
def trailing (fs : FileSystem) (path out : List UInt8) : Except Errno (List UInt8) :=
  if path.getLast? = some 0x2f then
    match access fs out with
    | .error _ => .ok out
    | .ok _ =>
      match access fs (out ++ [0x2f, 0x2e]) with
      | .error e => .error e
      | .ok _ => .ok out
  else .ok out

/-- What `out` begins with. -/
def start (cwd : Place) (path : List UInt8) : Except Errno (List UInt8) :=
  if path.head? = some 0x2f then .ok [0x2f] else getcwd cwd PATH_MAX

/-- `realpath`; `none` is a null pointer. -/
def realpath (fs : FileSystem) (cwd : Place) : Option (List UInt8) → Except Errno (List UInt8)
  | none => .error .EINVAL
  | some path =>
    if path = [] then .error .ENOENT
    else if PATH_MAX ≤ path.length then .error .ENAMETOOLONG
    else do
      let out ← start cwd path
      let out ← resolveLoop fs MAXLINKS out path
      trailing fs path out

/-! ## The prefix as a string -/

variable {fs : FileSystem}

theorem backLoop_eq (pre : List UInt8) {c : List UInt8} (hc : 0x2f ∉ c) : ∀ {k : ℕ}, k ≤ c.length →
    backLoop (pre ++ 0x2f :: c) (pre.length + 1 + k) = pre.length + 1
  | 0, _ => by
    have hget : (pre ++ 0x2f :: c).getD pre.length 0 = 0x2f := by
      rw [getD_append_right _ _ _ _ le_rfl, Nat.sub_self]
      rfl
    rw [Nat.add_zero, backLoop, if_neg (fun h => h.2 hget)]
  | k + 1, hk => by
    have hget : (pre ++ 0x2f :: c).getD (pre.length + 1 + k) 0 ≠ 0x2f := by
      rw [getD_append_right _ _ _ _ (by omega),
        show pre.length + 1 + k - pre.length = k + 1 by omega, getD_cons_succ,
        getD_eq_getElem _ _ hk]
      exact fun h => hc (h ▸ getElem_mem _)
    rw [← Nat.add_assoc, backLoop, if_pos ⟨by omega, hget⟩]
    exact backLoop_eq pre hc (by omega)

variable {d : Place}

theorem one_lt_pathOf (h : fs.kind d ≠ none) (hd : d ≠ []) : 1 < (pathOf d).length := by
  have hlast := (FileSystem.names h _ (getLast_mem hd)).ne_nil
  have := length_pos_iff.mpr hlast
  rw [← dropLast_concat_getLast hd, pathOf_concat, length_append, length_cons]
  omega

theorem back_pathOf (h : fs.kind d ≠ none) : back (pathOf d) = pathOf d.dropLast := by
  by_cases hd : d = []
  · subst hd
    rfl
  · have hsep := (FileSystem.names h _ (getLast_mem hd)).no_slash
    have hconcat := pathOf_concat d.dropLast (d.getLast hd)
    rw [dropLast_concat_getLast hd] at hconcat
    have hback := backLoop_eq (d.dropLast.flatMap (0x2f :: ·)) hsep le_rfl
    rw [back, hconcat, length_append, length_cons, Nat.add_comm (d.getLast hd).length 1,
      ← Nat.add_assoc, hback]
    by_cases hd' : d.dropLast = []
    · rw [hd']
      rfl
    · have hne : fs.kind d.dropLast ≠ none := by
        rw [FileSystem.dropLast_dir h hd]
        exact Option.some_ne_none _
      have hpos := one_lt_pathOf hne hd'
      rw [pathOf_of_ne_nil hd'] at hpos ⊢
      simp only [if_pos (show (d.dropLast.flatMap (0x2f :: ·)).length + 1 > 1 by omega)]
      rw [Nat.add_sub_cancel, take_left]

theorem append_pathOf (h : fs.kind d ≠ none) (c : Name) :
    (if (pathOf d).length > 1 then pathOf d ++ [0x2f] else pathOf d) ++ c = pathOf (d ++ [c]) := by
  by_cases hd : d = []
  · subst hd
    rw [pathOf_concat]
    rfl
  · rw [if_pos (one_lt_pathOf h hd), pathOf_concat, pathOf_of_ne_nil hd, append_assoc]
    rfl

theorem length_append_pathOf (h : fs.kind d ≠ none) (c : Name) :
    (pathOf d).length + (if (pathOf d).length > 1 then 1 else 0) + c.length =
      (pathOf (d ++ [c])).length := by
  rw [← append_pathOf h c, length_append]
  split_ifs
  · rw [length_append, length_singleton]
  · rfl

/-! ## The loop -/

/-- The prefix is the path of the file that was reached. -/
def Denotes (fs : FileSystem) (out : List UInt8) (v : Visit) : Prop :=
  out = pathOf v.file ∧ Reached fs v.file

/-- The loop stops as pathname resolution does. -/
inductive Agree (fs : FileSystem) : Stop (List UInt8) → Stop Visit → Prop
  | arrive {out v} : Denotes fs out v → Agree fs (.arrive out) (.arrive v)
  | link {out v t p} : Denotes fs out v → Agree fs (.link out t p) (.link v t p)
  | fail {e} : Agree fs (.fail e) (.fail e)

variable {out : List UInt8} {v : Visit}

theorem component_enter {c p : List UInt8} (h : Denotes fs out v) (hc : IsPlain c) :
    (∃ out' v', component fs out c p = .go out' ∧ enter fs ⟨false, true, true⟩ v c p = .go v' ∧
      Denotes fs out' v') ∨
    ∃ r r', component fs out c p = .stop r ∧ enter fs ⟨false, true, true⟩ v c p = .stop r' ∧
      Agree fs r r' := by
  obtain ⟨rfl, hr⟩ := h
  have hne := hr.plain.ne_none
  rw [component, if_neg hc.ne_dot, if_neg hc.ne_dotdot, length_append_pathOf hne, append_pathOf hne]
  by_cases hfits : Fits (v.file ++ [c])
  · have hlen : ¬ PATH_MAX ≤ (pathOf (v.file ++ [c])).length := not_le.mpr hfits
    have henter : ¬ ((true = true) ∧ ¬ Fits (v.file ++ [c])) := fun h => h.2 hfits
    rw [if_neg hlen, enter, if_neg henter]
    simp only [readlink_pathOf hr.plain hc hfits]
    by_cases hdir : fs.kind v.file = some .dir
    · rw [if_neg (not_not.mpr hdir), if_neg (not_not.mpr hdir)]
      cases hk : fs.kind (v.file ++ [c]) with
      | none => exact .inr ⟨_, _, rfl, rfl, .fail⟩
      | some k =>
        cases k with
        | dir => exact .inl ⟨_, _, rfl, rfl, rfl, .inl hk, hfits⟩
        | file => exact .inl ⟨_, _, rfl, rfl, rfl, .inr hk, hfits⟩
        | link t => exact .inr ⟨_, _, rfl, if_pos (.inl trivial), .link ⟨rfl, hr⟩⟩
    · rw [if_pos hdir, if_pos hdir]
      exact .inr ⟨_, _, rfl, rfl, .fail⟩
  · rw [if_pos (not_lt.mp hfits), enter, if_pos ⟨rfl, hfits⟩]
    exact .inr ⟨_, _, rfl, rfl, .fail⟩

/-- **The loop up to a link** is pathname resolution without checks. -/
theorem components_agree (h : Denotes fs out v) (p : List UInt8) :
    Agree fs (read (components fs) 0x2f out p) (read (reader fs ⟨false, true, true⟩) 0x2f v p) := by
  have hask : ∀ (v : Visit) (next : Place),
      ask fs ⟨false, true, true⟩ v next = .go ⟨next, v.asked ++ [v.file]⟩ :=
    fun v next => if_neg (fun h => Bool.false_ne_true h.1)
  refine read_sim (R := Denotes fs) (S := Agree fs) .arrive ?_ ?_ p h
  · rintro out v ⟨rfl, hr⟩
    exact .inl ⟨_, _, rfl, hask v v.file, rfl, hr⟩
  · intro out v c p h hc hsep hp
    by_cases hdot : c = [0x2e]
    · subst hdot
      obtain ⟨rfl, hr⟩ := h
      exact .inl ⟨_, _, rfl, hask v v.file, rfl, hr⟩
    by_cases hdotdot : c = [0x2e, 0x2e]
    · subst hdotdot
      obtain ⟨rfl, hr⟩ := h
      exact .inl ⟨_, _, rfl, hask v v.file.dropLast, back_pathOf hr.plain.ne_none, hr.dropLast⟩
    have hstep : (reader fs ⟨false, true, true⟩).piece v c p =
        enter fs ⟨false, true, true⟩ v c p := by
      simp only [reader, if_neg hdot, if_neg hdotdot]
    rw [hstep]
    exact component_enter h ⟨hc, hsep, hdot, hdotdot⟩

theorem Agree.result {x : Stop (List UInt8)} {y : Stop Visit} (h : Agree fs x y)
    {f : List UInt8 → List UInt8 → List UInt8 → Except Errno (List UInt8)}
    {g : Visit → List UInt8 → List UInt8 → Except Errno Visit}
    (hlink : ∀ {out v t p}, Denotes fs out v → f out t p = (g v t p).map fun w => pathOf w.file) :
    x.result f = (y.result g).map fun w => pathOf w.file := by
  cases h with
  | arrive hd => exact congrArg Except.ok hd.1
  | link hd => exact hlink hd
  | fail => rfl

/-- **The loop is pathname resolution without checks.** -/
theorem resolveLoop_eq {n : ℕ} {p : List UInt8} (h : Denotes fs out v) : resolveLoop fs n out p =
      (walk fs ⟨false, true, true⟩ n v p).map fun w => pathOf w.file := by
  induction n generalizing out p v with
  | zero =>
    rw [resolveLoop, walk]
    exact (components_agree h p).result fun _ => rfl
  | succ n ih =>
    rw [resolveLoop, walk]
    refine (components_agree h p).result fun {out v t p} hd => ?_
    have hbase : Denotes fs (if t.head? = some 0x2f then [0x2f] else out)
        ⟨base v.file t, v.asked⟩ := by
      refine ⟨?_, hd.2.base t⟩
      unfold base
      split_ifs
      · rfl
      · exact hd.1
    by_cases hlen : t.length + p.length < PATH_MAX
    · have hcheck : ¬ (true = true ∧ ¬ t.length + p.length < PATH_MAX) := fun h => h.2 hlen
      rw [if_neg (not_lt.mpr hlen), if_neg hcheck]
      exact ih hbase
    · have hcheck : true = true ∧ ¬ t.length + p.length < PATH_MAX := ⟨rfl, hlen⟩
      rw [if_pos (show t.length + p.length + 1 > PATH_MAX by omega), if_pos hcheck]
      rfl

/-! ## The result -/

/-- The last check of `realpath` passes. -/
def Passes (fs : FileSystem) (path : List UInt8) (d : Place) : Prop :=
  path.getLast? = some 0x2f → fs.kind d = some .dir ∧ (pathOf d).length + 2 < PATH_MAX

theorem trailing_eq_ok {path r : List UInt8} (h : Reached fs d) :
    trailing fs path (pathOf d) = .ok r ↔ Passes fs path d ∧ r = pathOf d := by
  unfold trailing Passes
  by_cases hslash : path.getLast? = some 0x2f
  · rw [if_pos hslash, access_pathOf h.plain h.fits, ← access_dot h.plain]
    cases access fs (pathOf d ++ [0x2f, 0x2e]) with
    | error e => exact ⟨fun h => (by cases h), fun h => (by cases h.1 hslash)⟩
    | ok u => exact ⟨fun h => ⟨fun _ => rfl, (Except.ok.inj h).symm⟩, fun h => congrArg _ h.2.symm⟩
  · rw [if_neg hslash]
    exact ⟨fun h => ⟨fun hs => absurd hs hslash, (Except.ok.inj h).symm⟩,
      fun h => congrArg _ h.2.symm⟩

/-- The working directory of a process. -/
abbrev FileSystem.Directory (fs : FileSystem) : Type := { d : Place // fs.kind d = some .dir }

/-- A path that may be resolved: it is not empty, and neither it nor the path of the directory it
begins at is too long. -/
structure Admissible (cwd : Place) (path : List UInt8) : Prop where
  ne_nil : path ≠ []
  short : path.length < PATH_MAX
  fits : Fits (base cwd path)

theorem start_eq (cwd : Place) (path : List UInt8) : start cwd path =
    if Fits (base cwd path) then .ok (pathOf (base cwd path)) else .error .ERANGE := by
  unfold start base
  by_cases hslash : path.head? = some 0x2f
  · rw [if_pos hslash, if_pos hslash, if_pos (by decide)]
    rfl
  · rw [if_neg hslash, if_neg hslash]
    rfl

theorem realpath_eq_ok (cwd : fs.Directory) {path r : List UInt8} :
    realpath fs cwd.1 (some path) = .ok r ↔ Admissible cwd.1 path ∧
      ∃ d l, Walks fs MAXLINKS (base cwd.1 path) path d l ∧ Passes fs path d ∧ r = pathOf d := by
  rw [realpath]
  by_cases hne : path = []
  · rw [if_pos hne]
    exact ⟨fun h => (by cases h), fun h => absurd hne h.1.ne_nil⟩
  by_cases hlen : path.length < PATH_MAX
  · rw [if_neg hne, if_neg (not_le.mpr hlen), start_eq]
    by_cases hfits : Fits (base cwd.1 path)
    · have hreached : Reached fs (base cwd.1 path) := by
        refine ⟨?_, hfits⟩
        unfold base
        split_ifs
        · exact .inl fs.root
        · exact .inl cwd.2
      have hloop := resolveLoop_eq (n := MAXLINKS) (p := path) (v := ⟨base cwd.1 path, []⟩)
        ⟨rfl, hreached⟩
      rw [if_pos hfits]
      change (resolveLoop fs MAXLINKS (pathOf (base cwd.1 path)) path >>=
        trailing fs path) = .ok r ↔ _
      rw [hloop]
      have hwalks : ∀ {d l}, Walks fs MAXLINKS (base cwd.1 path) path d l ↔
          walk fs ⟨false, true, true⟩ MAXLINKS ⟨base cwd.1 path, []⟩ path = .ok ⟨d, l⟩ := by
        intro d l
        rw [walk_iff]
        exact ⟨fun h => ⟨h, fun h => absurd h Bool.false_ne_true⟩, fun h => h.1⟩
      cases hw : walk fs ⟨false, true, true⟩ MAXLINKS ⟨base cwd.1 path, []⟩ path with
      | error e =>
        refine ⟨fun h => (by cases h), ?_⟩
        rintro ⟨-, d, l, hd, -⟩
        cases hw.symm.trans (hwalks.mp hd)
      | ok v =>
        have hv := hwalks.mpr hw
        refine (trailing_eq_ok (hv.reached hreached)).trans ?_
        constructor
        · exact fun h => ⟨⟨hne, hlen, hfits⟩, v.file, v.asked, hv, h⟩
        · rintro ⟨-, d, l, hd, h⟩
          cases hw.symm.trans (hwalks.mp hd)
          exact h
    · rw [if_neg hfits]
      exact ⟨fun h => (by cases h), fun h => absurd h.1.fits hfits⟩
  · rw [if_neg hne, if_pos (not_lt.mp hlen)]
    exact ⟨fun h => (by cases h), fun h => absurd h.1.short hlen⟩

/-! ## Pathname resolution as POSIX has it -/

/-- The path is resolved to the file with the absolute path `r`. -/
def Resolved (fs : FileSystem) (cwd : Place) (path r : List UInt8) : Prop :=
  Admissible cwd path ∧ ∃ d, Resolves fs MAXLINKS (base cwd path) path d ∧ r = pathOf d

/-- If the path reaches a file, then everything in front of a slash, `.` and `..` is a directory
exactly if the last check passes. -/
def LastCheckSuffices (fs : FileSystem) (cwd : Place) (path : List UInt8) : Prop :=
  Admissible cwd path → ∀ d l, Walks fs MAXLINKS (base cwd path) path d l →
    ((∀ f ∈ l, fs.kind f = some .dir) ↔ Passes fs path d)

/-- The absolute path of a file without `.`, `..`, empty components and links. -/
def Canonical (fs : FileSystem) (r : List UInt8) : Prop :=
  ∃ d, r = pathOf d ∧ (∀ c ∈ d, IsName c) ∧ ∀ p, p <+: d → Plain fs p

theorem Plain.of_isPrefix {p : Place} (h : Plain fs d) (hp : p <+: d) : Plain fs p := by
  induction d using List.reverseRecOn with
  | nil =>
    rw [prefix_nil.mp hp]
    exact h
  | append_singleton d c ih =>
    rcases prefix_concat_iff.mp hp with rfl | hp
    · exact h
    · exact ih (.inl (fs.parent h.ne_none)) hp

/-- **`realpath` and POSIX.** `realpath` succeeds if and only if the path is resolved, with the path
of the file, exactly for the paths for which the last check tells whether everything in front of a
slash, `.` and `..` is a directory. Its result is always canonical. -/
theorem realpath_correct (fs : FileSystem) (cwd : fs.Directory) (path : List UInt8) :
    ((∀ r, realpath fs cwd.1 (some path) = .ok r ↔ Resolved fs cwd.1 path r) ↔
      LastCheckSuffices fs cwd.1 path) ∧
    ∀ r, realpath fs cwd.1 (some path) = .ok r → Canonical fs r := by
  refine ⟨⟨fun h hadm d l hw => ⟨fun hdirs => ?_, fun hpass => ?_⟩, fun h r => ?_⟩, fun r hr => ?_⟩
  · obtain ⟨-, d', l', hw', hpass, hpath⟩ :=
      (realpath_eq_ok cwd).mp ((h (pathOf d)).mpr ⟨hadm, d, ⟨l, hw, hdirs⟩, rfl⟩)
    rw [(hw.unique hw').1]
    exact hpass
  · obtain ⟨-, d', ⟨l', hw', hdirs⟩, -⟩ :=
      (h (pathOf d)).mp ((realpath_eq_ok cwd).mpr ⟨hadm, d, l, hw, hpass, rfl⟩)
    rw [(hw.unique hw').2]
    exact hdirs
  · rw [realpath_eq_ok cwd]
    constructor
    · rintro ⟨hadm, d, l, hw, hpass, hpath⟩
      exact ⟨hadm, d, ⟨l, hw, (h hadm d l hw).mpr hpass⟩, hpath⟩
    · rintro ⟨hadm, d, ⟨l, hw, hdirs⟩, hpath⟩
      exact ⟨hadm, d, l, hw, (h hadm d l hw).mp hdirs, hpath⟩
  · obtain ⟨hadm, d, l, hw, -, hpath⟩ := (realpath_eq_ok cwd).mp hr
    have hstart : Plain fs (base cwd.1 path) := by
      unfold base
      split_ifs
      · exact .inl fs.root
      · exact .inl cwd.2
    have hplain := (hw.reached ⟨hstart, hadm.fits⟩).plain
    exact ⟨d, hpath, FileSystem.names hplain.ne_none, fun p hp => hplain.of_isPrefix hp⟩

/-- The kinds of a file system with one regular file, `f`. -/
def oneKind (d : Place) : Option Kind :=
  if d = [] then some .dir else if d = [[0x66]] then some .file else none

theorem oneKind_concat {c : Name} (h : oneKind (d ++ [c]) ≠ none) : d = [] ∧ c = [0x66] := by
  by_cases hd : d ++ [c] = [[0x66]]
  · have hlast : d ++ [c] = [] ++ [[0x66]] := hd
    obtain ⟨hd, hc⟩ := append_inj' hlast rfl
    exact ⟨hd, singleton_inj.mp hc⟩
  · refine absurd ?_ h
    rw [oneKind, if_neg (append_ne_nil_of_right_ne_nil _ (cons_ne_nil _ _)), if_neg hd]

def oneFile : FileSystem where
  kind := oneKind
  root := rfl
  parent h := by
    rw [(oneKind_concat h).1]
    rfl
  name h := by
    rw [(oneKind_concat h).2]
    exact ⟨by decide, by decide, by decide, by decide, by decide⟩
  target_lt := by
    intro d t h
    unfold oneKind at h
    split_ifs at h <;> cases h

/-- `/f/.` is no path of a file, since `f` is no directory, but `realpath` gives `/f`. -/
theorem realpath_dot_of_file :
    realpath oneFile [] (some [0x2f, 0x66, 0x2f, 0x2e]) = .ok [0x2f, 0x66] ∧
      ¬ Resolved oneFile [] [0x2f, 0x66, 0x2f, 0x2e] [0x2f, 0x66] := by
  refine ⟨rfl, ?_⟩
  rintro ⟨-, d, ⟨l, hw, hl⟩, -⟩
  have hwalk := walk_of_walks hw (fun (_ : true = true) => hl) []
  cases hwalk

end Citadel.Path
