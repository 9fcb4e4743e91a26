import Citadel.Number.Strtol

/-!
# The supplementary groups of a user

`initgroups` of `src/passwd.c` hands the base group and the groups of `/etc/group` that list the
user to `setgroups`, in an array of 1024.

* `member_iff`: the loop over the members looks for the user among them.
* `initgroups_iff`: when the array holds exactly the user's groups.
* `initgroups_cut`: a group that does not fit is left out.
-/

namespace Citadel.Passwd

open List Citadel.Number

/-- The pieces of a text that `sep` or the end of the text ends: the lines that `getline` reads, the
elements of a list of members. -/
def pieces (sep : UInt8) : List UInt8 → List (List UInt8)
  | [] => []
  | c :: s =>
    if c = sep then [] :: pieces sep s
    else match pieces sep s with
      | [] => [[c]]
      | l :: ls => (c :: l) :: ls

/-- The lines that `next_line` passes over. -/
def skipped (line : List UInt8) : Bool :=
  0 ∈ line ∨ line = [] ∨ peek line ∈ ['+'.toUInt8, '-'.toUInt8, '#'.toUInt8]

def parseId (s : List UInt8) : Option ℕ :=
  if 10 ≤ peek s - 48 then none
  else
    let v := strtoul s 10
    if v.rest ≠ [] ∨ v.errno ≠ none ∨ v.value > 2 ^ 32 - 2 then none else some v.value

/-- `parse_gr`, with `split` into exactly four fields: the group ID and the members. -/
def parseGr (line : List UInt8) : Option (ℕ × List UInt8) :=
  match line.splitOn ':'.toUInt8 with
  | [name, _, id, members] => if name = [] then none else (parseId id).map (·, members)
  | _ => none

def strcspn (s : List UInt8) (c : UInt8) : ℕ := s.findIdx (· == c)

/-- The byte sought is passed over; where there is none, nothing is left. -/
theorem drop_strcspn (m : List UInt8) (c : UInt8) :
    m.drop (strcspn m c + (m[strcspn m c]? == some c).toNat) = m.drop (strcspn m c + 1) := by
  by_cases hl : strcspn m c < m.length
  · have hfound : m[strcspn m c] = c := eq_of_beq (findIdx_getElem (p := (· == c)) (w := hl))
    simp [getElem?_eq_getElem hl, hfound]
  · rw [drop_eq_nil_of_le (by omega), drop_eq_nil_of_le (by omega)]

/-- `strncmp` finds no difference. -/
def strncmpEq : List UInt8 → List UInt8 → ℕ → Bool
  | _, _, 0 => true
  | [], [], _ + 1 => true
  | a :: s, b :: t, n + 1 => a = b && strncmpEq s t n
  | _, _, _ + 1 => false

variable (user : List UInt8) (group : ℕ)

/-- The loop of `initgroups` over the members `m` of a line: whether it finds the user. -/
def member (m : List UInt8) : Bool :=
  if m = [] then false
  else
    let l := strcspn m ','.toUInt8
    if l = user.length ∧ strncmpEq m user l then true
    else member (m.drop (l + (m[l]? == some ','.toUInt8).toNat))
termination_by m.length
decreasing_by
  have hpos := length_pos_iff.mpr ‹m ≠ []›
  rw [drop_strcspn, length_drop]
  omega

/-- The group that `initgroups` adds for a line. -/
def added (line : List UInt8) : Option ℕ :=
  if skipped line then none
  else match parseGr line with
    | none => none
    | some (g, members) =>
      if g = group then none else if member user members then some g else none

def addLine (list : List ℕ) (line : List UInt8) : List ℕ :=
  match added user group line with
  | some g => if list.length < 1024 then list ++ [g] else list
  | none => list

/-- The list that `initgroups` passes to `setgroups`, where `content` is what `getline` delivers:
nothing where the file cannot be opened, and what stands before a read that fails. -/
def initgroups (content : List UInt8) : List ℕ :=
  (pieces '\n'.toUInt8 content).foldl (addLine user group) [group]

/-- A well-formed line makes the user a member of group `g`. -/
def Grants (line : List UInt8) (g : ℕ) : Prop :=
  skipped line = false ∧ ∃ members, parseGr line = some (g, members) ∧
    user ∈ pieces ','.toUInt8 members

/-- The groups to add, one for each line. -/
def toAdd (content : List UInt8) : List ℕ :=
  (pieces '\n'.toUInt8 content).filterMap (added user group)

variable {user group}

theorem pieces_eq {m : List UInt8} (hm : m ≠ []) (sep : UInt8) :
    pieces sep m = m.take (strcspn m sep) :: pieces sep (m.drop (strcspn m sep + 1)) := by
  induction m with
  | nil => contradiction
  | cons c m ih =>
    rw [pieces, strcspn, findIdx_cons]
    by_cases hc : c = sep
    · simp [hc]
    · simp only [hc, if_false, beq_false_of_ne, cond_false, ne_eq, not_false_eq_true,
        take_succ_cons, drop_succ_cons]
      cases m with
      | nil => rfl
      | cons d m =>
        rw [ih (cons_ne_nil d m)]
        rfl

theorem strncmpEq_iff : ∀ {n : ℕ} {s t : List UInt8}, n ≤ s.length → n = t.length →
    (strncmpEq s t n = true ↔ s.take n = t)
  | 0, s, t, _, ht => by simp [strncmpEq, length_eq_zero_iff.mp ht.symm]
  | n + 1, a :: s, b :: t, hs, ht => by
    have ih := strncmpEq_iff (n := n) (s := s) (t := t) (by simpa using hs) (by simpa using ht)
    simp [strncmpEq, ih]

theorem member_iff (user m : List UInt8) :
    member user m = true ↔ user ∈ pieces ','.toUInt8 m := by
  fun_induction member user m with
  | case1 => simp [pieces]
  | case2 m hm l hfound =>
    have htake := (strncmpEq_iff findIdx_le_length hfound.1).mp hfound.2
    rw [pieces_eq hm]
    exact iff_of_true rfl (mem_cons.mpr (.inl htake.symm))
  | case3 m hm l hnot ih =>
    rw [ih, drop_strcspn, pieces_eq hm, mem_cons]
    refine (or_iff_right fun heq => hnot ?_).symm
    have hlen : l = user.length := by
      rw [heq, length_take]
      exact (min_eq_left findIdx_le_length).symm
    exact ⟨hlen, (strncmpEq_iff findIdx_le_length hlen).mpr heq.symm⟩

theorem added_eq_some {line : List UInt8} {g : ℕ} :
    added user group line = some g ↔ Grants user line g ∧ g ≠ group := by
  unfold added Grants
  cases skipped line with
  | true => simp
  | false =>
    cases parseGr line with
    | none => simp
    | some r =>
      simp only [Bool.false_eq_true, if_false]
      have := member_iff user r.2
      split_ifs <;> grind

theorem foldl_addLine (ls : List (List UInt8)) : ∀ list : List ℕ, list.length ≤ 1024 →
    ls.foldl (addLine user group) list = (list ++ ls.filterMap (added user group)).take 1024 := by
  induction ls with
  | nil => exact fun list h => by simp [take_of_length_le h]
  | cons line ls ih =>
    intro list hlen
    rw [foldl_cons, filterMap_cons, addLine]
    cases added user group line with
    | none => exact ih list hlen
    | some g =>
      dsimp only
      by_cases hroom : list.length < 1024
      · rw [if_pos hroom, ih _ (by simpa using hroom), append_assoc, singleton_append]
      · have hfull : list.length = 1024 := by omega
        rw [if_neg hroom, ih list hlen, take_left' hfull, take_left' hfull]

theorem initgroups_eq (content : List UInt8) :
    initgroups user group content = group :: (toAdd user group content).take 1023 :=
  foldl_addLine _ [group] (by simp)

/-- **The list for `setgroups` is exact** if and only if no group is first named by a line after
1023 lines that add a group. -/
theorem initgroups_iff (content user : List UInt8) (group : ℕ) :
    (∀ g, g ∈ initgroups user group content ↔
      g = group ∨ ∃ line ∈ pieces '\n'.toUInt8 content, Grants user line g) ↔
    ∀ g ∈ (toAdd user group content).drop 1023, g ∈ (toAdd user group content).take 1023 := by
  have hmem : ∀ g, g ∈ toAdd user group content ↔
      (∃ line ∈ pieces '\n'.toUInt8 content, Grants user line g) ∧ g ≠ group := by
    intro g
    simp only [toAdd, mem_filterMap, added_eq_some]
    grind
  have hsplit := take_append_drop 1023 (toAdd user group content)
  simp only [initgroups_eq, mem_cons]
  grind

theorem pieces_append {sep : UInt8} : ∀ {a : List UInt8}, sep ∉ a → ∀ s : List UInt8,
    pieces sep (a ++ sep :: s) = a :: pieces sep s
  | [], _, _ => if_pos rfl
  | c :: a, h, s => by
    rw [mem_cons, not_or] at h
    rw [cons_append, pieces, if_neg (Ne.symm h.1), pieces_append h.2]

/-- **A group is left out**: 1023 lines name `u` as a member of group 1, and one of group 2. -/
theorem initgroups_cut :
    let content := (List.replicate 1023 (bytes "g::1:u\n")).flatten ++ bytes "g::2:u"
    (∃ line ∈ pieces '\n'.toUInt8 content, Grants (bytes "u") line 2) ∧
      2 ∉ initgroups (bytes "u") 0 content := by
  have hpieces : ∀ n, pieces '\n'.toUInt8 ((List.replicate n (bytes "g::1:u\n")).flatten ++
      bytes "g::2:u") = List.replicate n (bytes "g::1:u") ++ [bytes "g::2:u"] := by
    intro n
    induction n with
    | zero => decide
    | succ n ih =>
      rw [replicate_succ, flatten_cons, append_assoc]
      exact (pieces_append (a := bytes "g::1:u") (by decide) _).trans (congrArg _ ih)
  have h1 : added (bytes "u") 0 (bytes "g::1:u") = some 1 :=
    added_eq_some.mpr ⟨⟨by decide, bytes "u", by decide, by decide⟩, by decide⟩
  intro content
  rw [initgroups_eq, toAdd, show pieces _ content = _ from hpieces 1023, filterMap_append,
    filterMap_replicate_of_some h1, take_left' length_replicate]
  refine ⟨⟨_, mem_append_right _ (mem_singleton_self _), by decide, bytes "u", by decide,
    by decide⟩, ?_⟩
  rw [mem_cons, mem_replicate]
  omega

end Citadel.Passwd
