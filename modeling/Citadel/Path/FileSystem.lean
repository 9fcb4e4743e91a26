import Citadel.Lib.Pieces
import Mathlib.Data.List.Induction

/-!
# File systems and pathname resolution

A file system of directories, regular files and symbolic links; a file is told by the names that
lead to it from the root. Pathname resolution as POSIX has it is the relation `Walks`, with one
rule for each kind of component: it gives the file that a path reaches and the files that it asks to
be directories, which are those in front of a slash, `.` and `..`. `walk` computes it.

* `walk_iff`: `walk` is `Walks`.
* `readlink_pathOf`, `access_dot`: what the system calls see of a file.
* `Walks.reached`: what a path reaches exists and is no link.
-/

namespace Citadel.Path

open Citadel.Lib.Pieces List Option

def PATH_MAX : ℕ := 4096

abbrev Name := List UInt8

/-- The names that lead to a file from the root. -/
abbrev Place := List Name

inductive Kind where
  | dir
  | file
  | link (target : List UInt8)
deriving DecidableEq

/-- What a name in a directory looks like. -/
structure IsName (c : Name) : Prop where
  ne_nil : c ≠ []
  no_slash : 0x2f ∉ c
  no_null : 0 ∉ c
  ne_dot : c ≠ [0x2e]
  ne_dotdot : c ≠ [0x2e, 0x2e]

structure FileSystem where
  kind : Place → Option Kind
  root : kind [] = some .dir
  parent : ∀ {d c}, kind (d ++ [c]) ≠ none → kind d = some .dir
  name : ∀ {d c}, kind (d ++ [c]) ≠ none → IsName c
  target_lt : ∀ {d t}, kind d = some (.link t) → t.length < PATH_MAX

/-- The absolute path of a file. -/
def pathOf (d : Place) : List UInt8 := if d = [] then [0x2f] else d.flatMap (0x2f :: ·)

def Fits (d : Place) : Prop := (pathOf d).length < PATH_MAX

instance (d : Place) : Decidable (Fits d) := inferInstanceAs (Decidable (_ < _))

/-- Where the target of a link in the directory `d` begins. -/
def base (d : Place) (t : List UInt8) : Place := if t.head? = some 0x2f then [] else d

/-! ## The rules -/

/-- **Pathname resolution**: from the file `d`, the path `s` leads to `r`, with at most `n` links on
the way; the files `l` stand in front of a slash, `.` or `..`. -/
inductive Walks (fs : FileSystem) : ℕ → Place → List UInt8 → Place → List Place → Prop
  | done {n d} : Walks fs n d [] d []
  | slash {n d s r l} : Walks fs n d s r l → Walks fs n d (0x2f :: s) r (d :: l)
  | dot {n d s r l} : Ends 0x2f s → Walks fs n d s r l → Walks fs n d (0x2e :: s) r (d :: l)
  | dotdot {n d s r l} : Ends 0x2f s → Walks fs n d.dropLast s r l →
      Walks fs n d (0x2e :: 0x2e :: s) r (d :: l)
  | entry {n d c s r l k} : Ends 0x2f s → fs.kind (d ++ [c]) = some k → (k = .dir ∨ k = .file) →
      Fits (d ++ [c]) → Walks fs n (d ++ [c]) s r l → Walks fs n d (c ++ s) r l
  | link {n d c s r l t} : Ends 0x2f s → fs.kind (d ++ [c]) = some (.link t) → Fits (d ++ [c]) →
      t.length + s.length < PATH_MAX → Walks fs n (base d t) (t ++ s) r l →
      Walks fs (n + 1) d (c ++ s) r l

/-- The file `r` that a path reaches from `d`: everything in front of a slash, `.` and `..` is a
directory. -/
def Resolves (fs : FileSystem) (n : ℕ) (d : Place) (s : List UInt8) (r : Place) : Prop :=
  ∃ l, Walks fs n d s r l ∧ ∀ f ∈ l, fs.kind f = some .dir

/-! ## Resolution as a program -/

inductive Errno where
  | ENOENT
  | ENOTDIR
  | ELOOP
  | ENAMETOOLONG
  | EINVAL
  | ERANGE
deriving DecidableEq

/-- Where the reading of a path ends: at its end, at a link with its target and what follows, or
with an error. -/
inductive Stop (σ : Type) where
  | arrive (s : σ)
  | link (s : σ) (target rest : List UInt8)
  | fail (e : Errno)

/-- The result of a reading; `f` goes on behind a link. -/
def Stop.result {σ : Type} (f : σ → List UInt8 → List UInt8 → Except Errno σ) :
    Stop σ → Except Errno σ
  | .arrive s => .ok s
  | .link s target rest => f s target rest
  | .fail e => .error e

/-- How a path is resolved. -/
structure Mode where
  /-- Whether what stands in front of a slash, `.` and `..` is checked. -/
  checked : Bool
  /-- Whether a link at the end is followed. -/
  follow : Bool
  /-- Whether the length of the paths on the way is limited. -/
  limited : Bool

/-- The file that is reached and the files that were asked to be directories. -/
structure Visit where
  file : Place
  asked : List Place

/-- A slash, `.` or `..` behind the file. -/
def ask (fs : FileSystem) (m : Mode) (v : Visit) (next : Place) : Next Visit (Stop Visit) :=
  if m.checked ∧ fs.kind v.file ≠ some .dir then .stop (.fail .ENOTDIR)
  else .go ⟨next, v.asked ++ [v.file]⟩

/-- A name is looked up. -/
def enter (fs : FileSystem) (m : Mode) (v : Visit) (c rest : List UInt8) :
    Next Visit (Stop Visit) :=
  if m.limited ∧ ¬ Fits (v.file ++ [c]) then .stop (.fail .ENAMETOOLONG)
  else if fs.kind v.file ≠ some .dir then .stop (.fail .ENOTDIR)
  else
    match fs.kind (v.file ++ [c]) with
    | none => .stop (.fail .ENOENT)
    | some (.link t) =>
      if m.follow ∨ rest ≠ [] then .stop (.link v t rest) else .go ⟨v.file ++ [c], v.asked⟩
    | some _ => .go ⟨v.file ++ [c], v.asked⟩

def reader (fs : FileSystem) (m : Mode) : Reader UInt8 Visit (Stop Visit) where
  sepStep v := ask fs m v v.file
  piece v c rest :=
    if c = [0x2e] then ask fs m v v.file
    else if c = [0x2e, 0x2e] then ask fs m v v.file.dropLast
    else enter fs m v c rest
  finish := .arrive

/-- Resolution with at most the given number of links. -/
def walk (fs : FileSystem) (m : Mode) : ℕ → Visit → List UInt8 → Except Errno Visit
  | 0, v, s => (read (reader fs m) 0x2f v s).result fun _ _ _ => .error .ELOOP
  | n + 1, v, s => (read (reader fs m) 0x2f v s).result fun v t rest =>
    if m.limited ∧ ¬ t.length + rest.length < PATH_MAX then .error .ENAMETOOLONG
    else walk fs m n ⟨base v.file t, v.asked⟩ (t ++ rest)

/-! ## One component -/

section Walk

variable (fs : FileSystem) (m : Mode)

/-- What `walk` does at a link. -/
def onLink : ℕ → Visit → List UInt8 → List UInt8 → Except Errno Visit
  | 0, _, _, _ => .error .ELOOP
  | n + 1, v, t, rest =>
    if m.limited ∧ ¬ t.length + rest.length < PATH_MAX then .error .ENAMETOOLONG
    else walk fs m n ⟨base v.file t, v.asked⟩ (t ++ rest)

theorem walk_eq (n : ℕ) (v : Visit) (s : List UInt8) :
    walk fs m n v s = (read (reader fs m) 0x2f v s).result (onLink fs m n) := by
  cases n with
  | zero | succ n => rfl

theorem walk_nil (n : ℕ) (v : Visit) : walk fs m n v [] = .ok v := by
  rw [walk_eq]
  rfl

theorem result_ask (n : ℕ) (v : Visit) (next : Place) (s : List UInt8) :
    ((ask fs m v next).run fun v => read (reader fs m) 0x2f v s).result (onLink fs m n) =
    if m.checked ∧ fs.kind v.file ≠ some .dir then .error .ENOTDIR
    else walk fs m n ⟨next, v.asked ++ [v.file]⟩ s := by
  unfold ask
  split_ifs
  · rfl
  · exact (walk_eq fs m n ⟨next, v.asked ++ [v.file]⟩ s).symm

theorem walk_slash (n : ℕ) (v : Visit) (s : List UInt8) : walk fs m n v (0x2f :: s) =
    if m.checked ∧ fs.kind v.file ≠ some .dir then .error .ENOTDIR
    else walk fs m n ⟨v.file, v.asked ++ [v.file]⟩ s := by
  rw [walk_eq, read_sep]
  exact result_ask fs m n v v.file s

variable {s : List UInt8}

theorem walk_dot (n : ℕ) (v : Visit) (hs : Ends 0x2f s) : walk fs m n v (0x2e :: s) =
      if m.checked ∧ fs.kind v.file ≠ some .dir then .error .ENOTDIR
      else walk fs m n ⟨v.file, v.asked ++ [v.file]⟩ s := by
  rw [walk_eq, ← singleton_append, read_piece _ _ _ (by decide) (by decide) hs]
  exact result_ask fs m n v v.file s

theorem walk_dotdot (n : ℕ) (v : Visit) (hs : Ends 0x2f s) : walk fs m n v (0x2e :: 0x2e :: s) =
      if m.checked ∧ fs.kind v.file ≠ some .dir then .error .ENOTDIR
      else walk fs m n ⟨v.file.dropLast, v.asked ++ [v.file]⟩ s := by
  rw [walk_eq, show (0x2e :: 0x2e :: s : List UInt8) = [0x2e, 0x2e] ++ s from rfl,
    read_piece _ _ _ (by decide) (by decide) hs]
  exact result_ask fs m n v v.file.dropLast s

/-- A component that is neither empty nor `.` nor `..`. -/
structure IsPlain (c : List UInt8) : Prop where
  ne_nil : c ≠ []
  no_slash : 0x2f ∉ c
  ne_dot : c ≠ [0x2e]
  ne_dotdot : c ≠ [0x2e, 0x2e]

theorem IsName.isPlain {c : Name} (h : IsName c) : IsPlain c :=
  ⟨h.ne_nil, h.no_slash, h.ne_dot, h.ne_dotdot⟩

theorem walk_name (n : ℕ) (v : Visit) {c : List UInt8} (hc : IsPlain c) (hs : Ends 0x2f s) :
    walk fs m n v (c ++ s) =
      ((enter fs m v c s).run fun v => read (reader fs m) 0x2f v s).result (onLink fs m n) := by
  have hstep : (reader fs m).piece v c s = enter fs m v c s := by
    simp only [reader, if_neg hc.ne_dot, if_neg hc.ne_dotdot]
  rw [walk_eq, read_piece _ _ _ hc.ne_nil hc.no_slash hs, hstep]

end Walk

variable {fs : FileSystem}

/-- A file that is no link. -/
def Plain (fs : FileSystem) (d : Place) : Prop := fs.kind d = some .dir ∨ fs.kind d = some .file

/-! ## `walk` is `Walks` -/

theorem enter_cases (checked : Bool) (v : Visit) (c s : List UInt8) :
    (∃ e, enter fs ⟨checked, true, true⟩ v c s = .stop (.fail e)) ∨
    (Fits (v.file ++ [c]) ∧ Plain fs (v.file ++ [c]) ∧
      enter fs ⟨checked, true, true⟩ v c s = .go ⟨v.file ++ [c], v.asked⟩) ∨
    ∃ t, Fits (v.file ++ [c]) ∧ fs.kind (v.file ++ [c]) = some (.link t) ∧
      enter fs ⟨checked, true, true⟩ v c s = .stop (.link v t s) := by
  unfold enter
  by_cases hfits : Fits (v.file ++ [c])
  · by_cases hdir : fs.kind v.file = some .dir
    · rw [if_neg (fun h => h.2 hfits), if_neg (not_not.mpr hdir)]
      cases hk : fs.kind (v.file ++ [c]) with
      | none => exact .inl ⟨_, rfl⟩
      | some k =>
        cases k with
        | dir => exact .inr (.inl ⟨hfits, .inl hk, rfl⟩)
        | file => exact .inr (.inl ⟨hfits, .inr hk, rfl⟩)
        | link t => exact .inr (.inr ⟨t, hfits, rfl, if_pos (.inl rfl)⟩)
    · rw [if_neg (fun h => h.2 hfits), if_pos hdir]
      exact .inl ⟨_, rfl⟩
  · rw [if_pos ⟨rfl, hfits⟩]
    exact .inl ⟨_, rfl⟩

variable {n : ℕ} {d r : Place} {s : List UInt8} {l : List Place} {checked : Bool} {v : Visit}

theorem Plain.entry {c : List UInt8}
    (h : Plain fs (d ++ [c])) (hs : Ends 0x2f s) (hfits : Fits (d ++ [c]))
    (hw : Walks fs n (d ++ [c]) s r l) : Walks fs n d (c ++ s) r l := by
  rcases h with hk | hk
  · exact .entry hs hk (.inl rfl) hfits hw
  · exact .entry hs hk (.inr rfl) hfits hw

/-- The rules lead from `d` to the file of `v`, and it asks for the files behind `a`. -/
def Found (fs : FileSystem) (checked : Bool) (n : ℕ) (d : Place) (a : List Place) (s : List UInt8)
    (v : Visit) : Prop :=
  ∃ l, v.asked = a ++ l ∧ Walks fs n d s v.file l ∧
    (checked = true → ∀ f ∈ l, fs.kind f = some .dir)

theorem Found.ask {next : Place} {a : List Place} {s' : List UInt8}
    (hrule : ∀ {r l}, Walks fs n next s r l → Walks fs n d s' r (d :: l))
    (ih : walk fs ⟨checked, true, true⟩ n ⟨next, a ++ [d]⟩ s = .ok v →
      Found fs checked n next (a ++ [d]) s v)
    (h : (if checked ∧ fs.kind d ≠ some .dir then .error .ENOTDIR
      else walk fs ⟨checked, true, true⟩ n ⟨next, a ++ [d]⟩ s) = .ok v) :
    Found fs checked n d a s' v := by
  split_ifs at h with hdir
  obtain ⟨l, hl, hw, hc⟩ := ih h
  refine ⟨d :: l, by rw [hl, append_assoc, singleton_append], hrule hw, ?_⟩
  intro hch f hf
  rcases mem_cons.mp hf with rfl | hf
  · exact not_not.mp fun hne => hdir ⟨hch, hne⟩
  · exact hc hch f hf

theorem found_of_read
    (hlink : ∀ {d a c t s}, Ends 0x2f s → fs.kind (d ++ [c]) = some (.link t) → Fits (d ++ [c]) →
      onLink fs ⟨checked, true, true⟩ n ⟨d, a⟩ t s = .ok v → Found fs checked n d a (c ++ s) v)
    (s : List UInt8) : ∀ {d : Place} {a : List Place},
    walk fs ⟨checked, true, true⟩ n ⟨d, a⟩ s = .ok v → Found fs checked n d a s v := by
  induction s using read_induction (0x2f : UInt8) with
  | nil =>
    intro d a h
    rw [walk_nil] at h
    cases h
    exact ⟨[], (append_nil a).symm, .done, fun _ f hf => absurd hf not_mem_nil⟩
  | cons s ih =>
    intro d a h
    rw [walk_slash] at h
    exact .ask .slash ih h
  | piece c s hc hsep hs ih =>
    intro d a h
    by_cases hdot : c = [0x2e]
    · subst hdot
      rw [singleton_append] at h ⊢
      rw [walk_dot _ _ _ _ hs] at h
      exact .ask (.dot hs) ih h
    by_cases hdotdot : c = [0x2e, 0x2e]
    · subst hdotdot
      rw [show [0x2e, 0x2e] ++ s = 0x2e :: 0x2e :: s from rfl] at h ⊢
      rw [walk_dotdot _ _ _ _ hs] at h
      exact .ask (.dotdot hs) ih h
    rw [walk_name _ _ _ _ ⟨hc, hsep, hdot, hdotdot⟩ hs] at h
    rcases enter_cases checked ⟨d, a⟩ c s with
      ⟨e, he⟩ | ⟨hfits, hplain, he⟩ | ⟨t, hfits, hk, he⟩
    · rw [he] at h
      cases h
    · rw [he] at h
      obtain ⟨l, hl, hw, hch⟩ := ih ((walk_eq _ _ _ _ _).trans h)
      exact ⟨l, hl, hplain.entry hs hfits hw, hch⟩
    · rw [he] at h
      exact hlink hs hk hfits h

theorem found_of_walk : ∀ {n : ℕ} (s : List UInt8) {d : Place}
    {a : List Place}, walk fs ⟨checked, true, true⟩ n ⟨d, a⟩ s = .ok v →
    Found fs checked n d a s v := by
  intro n
  induction n with
  | zero =>
    refine found_of_read fun _ _ _ h => ?_
    cases h
  | succ n ih =>
    refine found_of_read fun {d a c t s} hs hk hfits h => ?_
    rw [onLink] at h
    split_ifs at h with hlen
    obtain ⟨l, hl, hw, hch⟩ := ih _ h
    exact ⟨l, hl, .link hs hk hfits (not_not.mp fun hn => hlen ⟨rfl, hn⟩) hw, hch⟩

theorem walk_of_walks
    (h : Walks fs n d s r l) (hl : checked = true → ∀ f ∈ l, fs.kind f = some .dir)
    (a : List Place) : walk fs ⟨checked, true, true⟩ n ⟨d, a⟩ s = .ok ⟨r, a ++ l⟩ := by
  have hask : ∀ {d : Place} {l : List Place},
      (checked = true → ∀ f ∈ d :: l, fs.kind f = some .dir) →
      ¬ (checked = true ∧ fs.kind d ≠ some .dir) :=
    fun hl h => h.2 (hl h.1 _ mem_cons_self)
  have htail : ∀ {d : Place} {l : List Place},
      (checked = true → ∀ f ∈ d :: l, fs.kind f = some .dir) →
      checked = true → ∀ f ∈ l, fs.kind f = some .dir :=
    fun hl h f hf => hl h f (mem_cons_of_mem _ hf)
  have hthere : ∀ {f : Place} {k}, fs.kind f = some k → fs.kind f ≠ none :=
    fun hk h => some_ne_none _ (hk.symm.trans h)
  induction h generalizing a with
  | done => rw [walk_nil, append_nil]
  | slash hw ih => rw [walk_slash, if_neg (hask hl), ih (htail hl), ← append_cons]
  | dot hs hw ih => rw [walk_dot _ _ _ _ hs, if_neg (hask hl), ih (htail hl), ← append_cons]
  | dotdot hs hw ih =>
    rw [walk_dotdot _ _ _ _ hs, if_neg (hask hl), ih (htail hl), ← append_cons]
  | @entry n d c s r l k hs hk hkind hfits hw ih =>
    have hne := hthere hk
    have he : enter fs ⟨checked, true, true⟩ ⟨d, a⟩ c s = .go ⟨d ++ [c], a⟩ := by
      rw [enter, if_neg (fun h => h.2 hfits), if_neg (not_not.mpr (fs.parent hne))]
      rcases hkind with rfl | rfl
      · simp only [hk]
      · simp only [hk]
    rw [walk_name _ _ _ _ (fs.name hne).isPlain hs, he]
    exact (walk_eq _ _ _ _ _).symm.trans (ih hl a)
  | @link n d c s r l t hs hk hfits hlen hw ih =>
    have hne := hthere hk
    have he : enter fs ⟨checked, true, true⟩ ⟨d, a⟩ c s = .stop (.link ⟨d, a⟩ t s) := by
      rw [enter, if_neg (fun h => h.2 hfits), if_neg (not_not.mpr (fs.parent hne))]
      simp only [hk]
      exact if_pos (.inl trivial)
    rw [walk_name _ _ _ _ (fs.name hne).isPlain hs, he]
    exact (if_neg fun h => h.2 hlen).trans (ih hl a)

theorem walk_iff : walk fs ⟨checked, true, true⟩ n ⟨d, []⟩ s = .ok ⟨r, l⟩ ↔
      Walks fs n d s r l ∧ (checked = true → ∀ f ∈ l, fs.kind f = some .dir) := by
  constructor
  · intro h
    obtain ⟨l', hl, hw, hc⟩ := found_of_walk s h
    obtain rfl : l = l' := hl
    exact ⟨hw, hc⟩
  · rintro ⟨hw, hc⟩
    exact walk_of_walks hw hc []

theorem Walks.unique {r' : Place} {l' : List Place}
    (h : Walks fs n d s r l) (h' : Walks fs n d s r' l') : r = r' ∧ l = l' := by
  have hno : ∀ {l : List Place}, false = true → ∀ f ∈ l, fs.kind f = some .dir :=
    fun h => absurd h Bool.false_ne_true
  have hv := walk_of_walks h hno []
  rw [walk_of_walks h' hno []] at hv
  cases hv
  exact ⟨rfl, rfl⟩

/-! ## System calls -/

/-- The number of links that the kernel follows. -/
def SYMLOOP_MAX : ℕ := 40

/-- The kernel resolves an absolute path. -/
def namei (fs : FileSystem) (follow : Bool) (s : List UInt8) : Except Errno Place :=
  if s = [] then .error .ENOENT
  else if PATH_MAX ≤ s.length then .error .ENAMETOOLONG
  else (walk fs ⟨true, follow, false⟩ SYMLOOP_MAX ⟨[], []⟩ s).map Visit.file

/-- `readlink` into a buffer of `size` bytes. -/
def readlink (fs : FileSystem) (s : List UInt8) (size : ℕ) : Except Errno (List UInt8) :=
  match namei fs false s with
  | .error e => .error e
  | .ok d =>
    match fs.kind d with
    | some (.link t) => .ok (t.take size)
    | _ => .error .EINVAL

def access (fs : FileSystem) (s : List UInt8) : Except Errno Unit :=
  (namei fs true s).map fun _ => ()

/-- `getcwd` into a buffer of `size` bytes. -/
def getcwd (cwd : Place) (size : ℕ) : Except Errno (List UInt8) :=
  if (pathOf cwd).length < size then .ok (pathOf cwd) else .error .ERANGE

/-! ## The path of a file -/

theorem Plain.ne_none (h : Plain fs d) : fs.kind d ≠ none := by
  rcases h with h | h
  · rw [h]
    exact some_ne_none _
  · rw [h]
    exact some_ne_none _

theorem FileSystem.dropLast_dir (h : fs.kind d ≠ none) (hd : d ≠ []) :
    fs.kind d.dropLast = some .dir := by
  rw [← dropLast_concat_getLast hd] at h
  exact fs.parent h

theorem FileSystem.names (h : fs.kind d ≠ none) : ∀ c ∈ d, IsName c := by
  induction d using List.reverseRecOn with
  | nil => exact fun c hc => absurd hc not_mem_nil
  | append_singleton d c ih =>
    intro c' hc'
    have hdir : fs.kind d ≠ none := by
      rw [fs.parent h]
      exact some_ne_none _
    rcases mem_append.mp hc' with hc' | hc'
    · exact ih hdir c' hc'
    · rw [mem_singleton.mp hc']
      exact fs.name h

theorem pathOf_of_ne_nil (h : d ≠ []) : pathOf d = d.flatMap (0x2f :: ·) := if_neg h

theorem pathOf_concat (d : Place) (c : Name) :
    pathOf (d ++ [c]) = d.flatMap (0x2f :: ·) ++ 0x2f :: c := by
  rw [pathOf_of_ne_nil (append_ne_nil_of_right_ne_nil _ (cons_ne_nil _ _)),
    flatMap_append, flatMap_singleton]

theorem walk_names {follow : Bool} (h : Plain fs d) (s : List UInt8)
    (hs : Ends 0x2f s) (a : List Place) :
    ∃ a', walk fs ⟨true, follow, false⟩ n ⟨[], a⟩ (d.flatMap (0x2f :: ·) ++ s) =
      walk fs ⟨true, follow, false⟩ n ⟨d, a'⟩ s := by
  induction d using List.reverseRecOn generalizing s with
  | nil => exact ⟨a, rfl⟩
  | append_singleton d c ih =>
    have hdir := fs.parent h.ne_none
    obtain ⟨a', ha⟩ := ih (.inl hdir) (0x2f :: (c ++ s)) (.inr rfl)
    refine ⟨a' ++ [d], ?_⟩
    have he : enter fs ⟨true, follow, false⟩ ⟨d, a' ++ [d]⟩ c s = .go ⟨d ++ [c], a' ++ [d]⟩ := by
      rw [enter, if_neg (fun h => Bool.false_ne_true h.1), if_neg (not_not.mpr hdir)]
      rcases h with h | h
      · simp only [h]
      · simp only [h]
    rw [flatMap_append, flatMap_singleton, append_assoc, cons_append, ha,
      walk_slash, if_neg (fun h => h.2 hdir), walk_name _ _ _ _ (fs.name h.ne_none).isPlain hs, he]
    exact (walk_eq _ _ _ _ _).symm

theorem namei_names (follow : Bool) (h : Plain fs d) (hs : Ends 0x2f s)
    (hne : d.flatMap (0x2f :: ·) ++ s ≠ [])
    (hlen : (d.flatMap (0x2f :: ·) ++ s).length < PATH_MAX) :
    ∃ a, namei fs follow (d.flatMap (0x2f :: ·) ++ s) =
      (walk fs ⟨true, follow, false⟩ SYMLOOP_MAX ⟨d, a⟩ s).map Visit.file := by
  obtain ⟨a, ha⟩ := walk_names h s hs []
  rw [namei, if_neg hne, if_neg (not_le.mpr hlen), ha]
  exact ⟨a, rfl⟩

theorem namei_pathOf (follow : Bool) (h : Plain fs d)
    (hs : Ends 0x2f s) (hlen : (pathOf d ++ s).length < PATH_MAX) :
    ∃ a, namei fs follow (pathOf d ++ s) =
      (walk fs ⟨true, follow, false⟩ SYMLOOP_MAX ⟨d, a⟩ s).map Visit.file := by
  by_cases hd : d = []
  · subst hd
    obtain ⟨a, ha⟩ := namei_names (d := []) (s := 0x2f :: s) follow h (.inr rfl)
      (cons_ne_nil _ _) hlen
    refine ⟨a ++ [[]], ha.trans ?_⟩
    rw [walk_slash, if_neg (fun h => h.2 fs.root)]
  · have hne : d.flatMap (0x2f :: ·) ≠ [] := by
      rw [← dropLast_concat_getLast hd, flatMap_append, flatMap_singleton]
      exact append_ne_nil_of_right_ne_nil _ (cons_ne_nil _ _)
    rw [pathOf_of_ne_nil hd] at hlen ⊢
    exact namei_names follow h hs (append_ne_nil_of_left_ne_nil hne s) hlen

/-- **`readlink`** of a name in a file that is no link. -/
theorem readlink_pathOf {c : Name} (h : Plain fs d) (hc : IsPlain c)
    (hfits : Fits (d ++ [c])) : readlink fs (pathOf (d ++ [c])) (PATH_MAX - 1) =
      if fs.kind d ≠ some .dir then .error .ENOTDIR else match fs.kind (d ++ [c]) with
        | none => .error .ENOENT | some (.link t) => .ok t | some _ => .error .EINVAL := by
  rw [Fits, pathOf_concat] at hfits
  obtain ⟨a, ha⟩ := namei_names false h (.inr rfl)
    (append_ne_nil_of_right_ne_nil _ (cons_ne_nil _ _)) hfits
  rw [readlink, pathOf_concat, ha, walk_slash]
  by_cases hdir : fs.kind d = some .dir
  · have hwalk := walk_name fs ⟨true, false, false⟩ SYMLOOP_MAX ⟨d, a ++ [d]⟩ hc (.inl rfl)
    rw [append_nil] at hwalk
    rw [if_neg (fun h => h.2 hdir), if_neg (not_not.mpr hdir), hwalk, enter,
      if_neg (fun h => Bool.false_ne_true h.1), if_neg (not_not.mpr hdir)]
    cases hk : fs.kind (d ++ [c]) with
    | none => rfl
    | some k =>
      cases k with
      | dir | file => simp only [Next.run, read_nil, reader, Stop.result, Except.map, hk]
      | link t =>
        have hlink : ¬ (false = true ∨ ([] : List UInt8) ≠ []) := by decide
        have hlt := fs.target_lt hk
        simp only [if_neg hlink, Next.run, read_nil, reader, Stop.result, Except.map, hk]
        rw [take_of_length_le (by omega)]
  · rw [if_pos ⟨rfl, hdir⟩, if_pos hdir]
    rfl

theorem access_pathOf (h : Plain fs d) (hfits : Fits d) : access fs (pathOf d) = .ok () := by
  obtain ⟨a, ha⟩ := namei_pathOf true h (s := []) (.inl rfl)
    (by rw [append_nil]; exact hfits)
  rw [append_nil] at ha
  rw [access, ha, walk_nil]
  rfl

theorem access_dot (h : Plain fs d) : access fs (pathOf d ++ [0x2f, 0x2e]) = .ok () ↔
      fs.kind d = some .dir ∧ (pathOf d).length + 2 < PATH_MAX := by
  have hlen : (pathOf d ++ [0x2f, 0x2e]).length = (pathOf d).length + 2 := length_append
  by_cases hfits : (pathOf d).length + 2 < PATH_MAX
  · obtain ⟨a, ha⟩ := namei_pathOf true h (s := [0x2f, 0x2e]) (.inr rfl)
      (by rw [hlen]; exact hfits)
    rw [access, ha, walk_slash]
    by_cases hdir : fs.kind d = some .dir
    · rw [if_neg (fun h => h.2 hdir), walk_dot _ _ _ _ (.inl rfl), if_neg (fun h => h.2 hdir),
        walk_nil]
      exact ⟨fun _ => ⟨hdir, hfits⟩, fun _ => rfl⟩
    · rw [if_pos ⟨rfl, hdir⟩]
      exact ⟨fun h => (by cases h), fun h => absurd h.1 hdir⟩
  · have hne : ¬ pathOf d ++ [0x2f, 0x2e] = [] :=
      append_ne_nil_of_right_ne_nil _ (cons_ne_nil _ _)
    rw [access, namei, if_neg hne, if_pos (by rw [hlen]; omega)]
    exact ⟨fun h => (by cases h), fun h => absurd h.2 hfits⟩

/-! ## What a path reaches -/

/-- A file that is no link, with a path that is not too long. -/
structure Reached (fs : FileSystem) (d : Place) : Prop where
  plain : Plain fs d
  fits : Fits d

theorem Reached.root (fs : FileSystem) : Reached fs [] := ⟨.inl fs.root, by decide⟩

theorem Reached.dropLast (h : Reached fs d) : Reached fs d.dropLast := by
  by_cases hd : d = []
  · subst hd
    exact h
  · refine ⟨.inl (FileSystem.dropLast_dir h.plain.ne_none hd), ?_⟩
    by_cases hd' : d.dropLast = []
    · rw [hd']
      exact (Reached.root fs).fits
    · have hfits := h.fits
      rw [Fits, ← dropLast_concat_getLast hd, pathOf_concat, length_append] at hfits
      rw [Fits, pathOf_of_ne_nil hd']
      omega

theorem Reached.base (h : Reached fs d) (t : List UInt8) : Reached fs (base d t) := by
  unfold Path.base
  split_ifs
  · exact .root fs
  · exact h

theorem Walks.reached (h : Walks fs n d s r l) (hd : Reached fs d) : Reached fs r := by
  induction h with
  | done => exact hd
  | slash _ ih | dot _ _ ih => exact ih hd
  | dotdot _ _ ih => exact ih hd.dropLast
  | entry _ hk hkind hfits _ ih =>
    rcases hkind with rfl | rfl
    · exact ih ⟨.inl hk, hfits⟩
    · exact ih ⟨.inr hk, hfits⟩
  | link _ _ _ _ _ ih => exact ih (hd.base _)

end Citadel.Path
