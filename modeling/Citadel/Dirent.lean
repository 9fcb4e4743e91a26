import Mathlib.Data.Int.Basic
import Mathlib.Data.List.Sort

/-!
# `scandir`

`readdir` and `scandir` of `src/dirent.c`. A record of a directory is of any type; what the kernel
returns, whether the memory suffices, what the selection function does and the sort are parameters.

* `scandir_iff`: when everything succeeds, `scandir` returns the selected records and leaves `errno`
  exactly if it is zero behind the last call of the selection function and the comparison keeps it.
-/

namespace Citadel.Dirent

open List

variable {α : Type}

def ENOENT : ℤ := 2

def ENOMEM : ℤ := 12

/-- The records that the calls of `readdir` return one after the other, and the `errno` that the
last one sets; a call of `getdents64` fills the buffer, and 0, the end of the directory, is an empty
list. -/
def readdir : List (Except ℤ (List α)) → List α × Option ℤ
  | .ok (a :: l) :: rs => (a :: l ++ (readdir rs).1, (readdir rs).2)
  | .error e :: _ => ([], if e ≠ ENOENT then some e else none)
  | _ => ([], none)

/-- The code around `scandir`: call `k` of the selection function (a null one accepts everything)
with the `errno` that it leaves, the allocations, the `errno` of a `closedir` that fails, and the
sort (a null comparison sorts nothing), whose comparisons leave an `errno` as well. -/
structure Caller (α : Type) where
  sel : ℕ → α → ℤ → Bool × ℤ
  realloc : ℕ → Bool
  malloc : ℕ → Bool
  close : Option ℤ
  sort : List α → ℤ → List α × ℤ

variable (c : Caller α)

/-- The loop of `scandir` at call `k` of the selection function: the list and `errno`. -/
def scanLoop (eof : Option ℤ) : List α → ℕ → List α → ℕ → ℤ → List α × ℤ
  | [], _, list, _, errno => (list, eof.getD errno)
  | de :: l, k, list, cap, errno =>
    let r := c.sel k de errno
    if r.1 = false then scanLoop eof l (k + 1) list cap r.2
    else
      let nc := if cap ≠ 0 then cap * 2 else 32
      if list.length = cap ∧ c.realloc nc = false ∨ c.malloc list.length = false then
        (list, ENOMEM)
      else scanLoop eof l (k + 1) (list ++ [de]) (if list.length = cap then nc else cap) r.2

/-- The value returned, `*res` and `errno`; `dir` is what `opendir` gives. -/
def scandir (dir : Except ℤ (List (Except ℤ (List α)))) (errno : ℤ) : ℤ × Option (List α) × ℤ :=
  match dir with
  | .error e => (-1, none, e)
  | .ok rs =>
    let s := scanLoop c (readdir rs).2 (readdir rs).1 0 [] 0 0
    let e := c.close.getD s.2
    if e ≠ 0 ∨ s.1.length > 0x7fffffff then (-1, none, if e ≠ 0 then e else ENOMEM)
    else
      let t := c.sort s.1 errno
      (s.1.length, some t.1, t.2)

/-- The records that the selection function accepts, from its call `k` on, and the `errno` that it
leaves. -/
def selected : List α → ℕ → ℤ → List α × ℤ
  | [], _, e => ([], e)
  | a :: l, k, e =>
    let t := selected l (k + 1) (c.sel k a e).2
    (if (c.sel k a e).1 = false then t.1 else a :: t.1, t.2)

variable {c}

theorem scanLoop_eq (hc : ∀ n, c.realloc n = true ∧ c.malloc n = true) (l : List α) :
    ∀ k list cap e,
      scanLoop c none l k list cap e = (list ++ (selected c l k e).1, (selected c l k e).2) := by
  induction l with
  | nil =>
    intro k list cap e
    rw [selected, append_nil]
    rfl
  | cons a l ih =>
    intro k list cap e
    simp only [scanLoop, selected, hc, Bool.true_eq_false, and_false, or_false, if_false, ih]
    split_ifs
    · rfl
    · rw [append_assoc, singleton_append]

/-- **`scandir` returns every selected record** and leaves `errno` as it was, exactly if `errno` is
zero when its loop is done, whoever set it, an `int` holds the count and the comparisons of the
sort, which run behind the restoration of `errno`, leave it in turn. -/
theorem scandir_iff {le : α → α → Prop} (hc : ∀ n, c.realloc n = true ∧ c.malloc n = true)
    {rs : List (Except ℤ (List α))} (hread : (readdir rs).2 = none) {sel : List α} {e : ℤ}
    (hsel : selected c (readdir rs).1 0 0 = (sel, e)) {errno : ℤ}
    (hsort : (c.sort sel errno).1.Perm sel ∧ (c.sort sel errno).1.Pairwise le) :
    (∃ res, scandir c (.ok rs) errno = ((sel.length : ℤ), some res, errno) ∧ res.Perm sel ∧
      res.Pairwise le) ↔
      c.close.getD e = 0 ∧ sel.length ≤ 0x7fffffff ∧ (c.sort sel errno).2 = errno := by
  simp only [scandir, hread, scanLoop_eq hc, hsel, nil_append]
  by_cases h : c.close.getD e ≠ 0 ∨ sel.length > 0x7fffffff
  · rw [if_pos h]
    refine ⟨fun ⟨_, hres, _⟩ => ?_, fun hok => by omega⟩
    have := (Prod.mk.inj hres).1
    omega
  · rw [if_neg h]
    constructor
    · rintro ⟨res, hres, -⟩
      simp only [Prod.mk.injEq] at hres
      exact ⟨by omega, by omega, hres.2.2⟩
    · rintro ⟨-, -, he⟩
      exact ⟨_, by rw [he], hsort⟩

/-- A caller whose selection function accepts everything, and that sorts by the order of numbers. -/
def leaving (errno : ℤ) : Caller ℕ where
  sel _ _ _ := (true, errno)
  realloc _ := true
  malloc _ := true
  close := none
  sort l e := (l.insertionSort (· ≤ ·), e)

theorem scandir_iff_two : ∃ res, scandir (leaving 0) (.ok [.ok [8, 7]]) 5 = (2, some res, 5) ∧
    res.Perm [8, 7] ∧ res.Pairwise (· ≤ ·) :=
  (scandir_iff (c := leaving 0) (fun _ => ⟨rfl, rfl⟩) rfl rfl
    ⟨perm_insertionSort _ _, pairwise_insertionSort _ _⟩).mpr (by decide)

/-- The selection function leaves an error of its own. -/
theorem scandir_sel_errno : scandir (leaving 2) (.ok [.ok [7]]) 5 = (-1, none, 2) ∧
    selected (leaving 2) [7] 0 0 = ([7], 2) := ⟨rfl, rfl⟩

end Citadel.Dirent
