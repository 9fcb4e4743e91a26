import Citadel.Ldso.Objects
import Mathlib.Data.UInt

/-!
# Symbol lookup through hash sections

`lookup_in` of `src/ldso/dynlink.c` finds a symbol of one object through its `DT_GNU_HASH` section,
or through its `DT_HASH` section if it has none. A section is a list of 32-bit words, a symbol the
index into the symbol table; `none` stands for a read outside a section or the symbol table, or a
loop that does not end.

* `GnuSection.WellFormed`, `SysvSection.WellFormed`: what a section built for a symbol table is.
* `lookupIn_linear`: with either section the lookup finds a definition exactly if a linear search
  does.
-/

namespace Citadel.Ldso.Symtab

open List Nat Bool

/-- `Elf64_Sym`; the name is the string that `st_name` stands for. -/
structure Sym where
  name : Name
  info : UInt8
  shndx : UInt16
deriving DecidableEq, Repr

/-- The parts of `struct dso` that are read. -/
structure Object where
  syms : List Sym
  ghashtab : Option (List UInt32)
  hashtab : Option (List UInt32)

/-! ## Hashes -/

def sysvStep (h : UInt32) (c : UInt8) : UInt32 :=
  let h := 16 * h + c.toUInt32
  h ^^^ (h >>> 24 &&& 0xf0)

def sysvHash (s : Name) : UInt32 := s.foldl sysvStep 0 &&& 0xfffffff

def gnuHash (s : Name) : UInt32 := s.foldl (fun h c => h * 33 + c.toUInt32) 5381

def stType (info : UInt8) : UInt8 := info &&& 0xf

def stBind (info : UInt8) : UInt8 := info >>> 4

def defined (s : Sym) : Bool :=
  s.shndx ≠ 0 && (stBind s.info = 1 || stBind s.info = 2) &&
    (stType s.info = 0 || stType s.info = 1 || stType s.info = 2 || stType s.info = 5 ||
      stType s.info = 6 || stType s.info = 10)

/-- `struct name` -/
structure Key where
  s : Name
  gh : UInt32
  sh : UInt32

def mkname (s : Name) : Key := ⟨s, gnuHash s, sysvHash s⟩

/-- A definition of the name. -/
def defines (n : Name) (s : Sym) : Bool := defined s && s.name = n

/-! ## `lookup_in` -/

/-- The word `j` of the Bloom filter. -/
def bloomWord (ht : List UInt32) (j : ℕ) : Option UInt64 :=
  match ht[4 + 2 * j]?, ht[4 + 2 * j + 1]? with
  | some lo, some hi => some (lo.toUInt64 ||| hi.toUInt64 <<< 32)
  | _, _ => none

/-- The two bits of the Bloom filter for a hash. -/
def bloomMask (gh shift : UInt32) : UInt64 :=
  1 <<< (gh % 64).toUInt64 ||| 1 <<< (gh >>> shift % 64).toUInt64

/-- The symbol `i`, whose word in the chain is `h2`, is the one that is looked for. -/
def hit (syms : List Sym) (n : Key) (i h2 : UInt32) : Option Bool :=
  if n.gh ||| 1 = h2 ||| 1 then (syms[i.toNat]?).map (defines n.s) else some false

/-- The chain from symbol `i` on; `base` is the place of the chain of `symoffset`. -/
def gnuWalk (syms : List Sym) (ht : List UInt32) (n : Key) (base : ℕ) (symoffset : UInt32) :
    ℕ → UInt32 → Option (Option UInt32)
  | 0, _ => none
  | fuel + 1, i =>
    match ht[base + (i - symoffset).toNat]? with
    | none => none
    | some h2 =>
      match hit syms n i h2 with
      | none => none
      | some true => some (some i)
      | some false =>
        if h2 &&& 1 ≠ 0 then some none else gnuWalk syms ht n base symoffset fuel (i + 1)

def gnuLookup (syms : List Sym) (ht : List UInt32) (n : Key) : Option (Option UInt32) :=
  match ht[0]?, ht[1]?, ht[2]?, ht[3]? with
  | some nbuckets, some symoffset, some bloomSize, some shift =>
    -- the operations of the source that these values leave undefined
    if nbuckets = 0 ∨ bloomSize = 0 ∨ 32 ≤ shift then none
    else match bloomWord ht (n.gh / 64 % bloomSize).toNat with
      | none => none
      | some word =>
        if word &&& bloomMask n.gh shift ≠ bloomMask n.gh shift then some none
        else match ht[4 + 2 * bloomSize.toNat + (n.gh % nbuckets).toNat]? with
          | none => none
          | some i =>
            if i = 0 then some none
            else gnuWalk syms ht n (4 + 2 * bloomSize.toNat + nbuckets.toNat) symoffset ht.length i
  | _, _, _, _ => none

/-- The chain from symbol `i` on; `base` is the place of the chain. -/
def sysvWalk (syms : List Sym) (ht : List UInt32) (n : Key) (base : ℕ) :
    ℕ → UInt32 → Option (Option UInt32)
  | 0, _ => none
  | fuel + 1, i =>
    if i = 0 then some none
    else match syms[i.toNat]? with
      | none => none
      | some s =>
        if defines n.s s then some (some i)
        else match ht[base + i.toNat]? with
          | none => none
          | some j => sysvWalk syms ht n base fuel j

def sysvLookup (syms : List Sym) (ht : List UInt32) (n : Key) : Option (Option UInt32) :=
  match ht[0]? with
  | none => none
  | some nbucket =>
    if nbucket = 0 then none
    else match ht[2 + (n.sh % nbucket).toNat]? with
      | none => none
      | some i => sysvWalk syms ht n (2 + nbucket.toNat) (ht.length + 1) i

def lookupIn (d : Object) (n : Key) : Option (Option UInt32) :=
  match d.ghashtab, d.hashtab with
  | some ht, _ => gnuLookup d.syms ht n
  | none, some ht => sysvLookup d.syms ht n
  | none, none => none

/-! ## Well-formed sections -/

structure GnuSection where
  nbuckets : UInt32
  symoffset : UInt32
  bloomSize : UInt32
  shift : UInt32
  bloom : List UInt64
  buckets : List UInt32
  chain : List UInt32

def GnuSection.words (g : GnuSection) : List UInt32 :=
  [g.nbuckets, g.symoffset, g.bloomSize, g.shift] ++
    g.bloom.flatMap (fun w : UInt64 => [w.toUInt32, (w >>> 32).toUInt32]) ++ g.buckets ++ g.chain

def GnuSection.bucket (g : GnuSection) (s : Sym) : UInt32 := gnuHash s.name % g.nbuckets

/-- The section is built for a symbol table: the symbols from `symoffset` on are grouped by bucket,
and those that can be looked up are among them. -/
structure GnuSection.WellFormed (g : GnuSection) (syms : List Sym) : Prop where
  length : syms.length < 2 ^ 32
  nbuckets : 0 < g.nbuckets
  buckets_length : g.buckets.length = g.nbuckets.toNat
  bloomSize : 0 < g.bloomSize
  bloom_length : g.bloom.length = g.bloomSize.toNat
  shift : g.shift < 32
  symoffset : 0 < g.symoffset
  covers : ∀ (i : ℕ) s, syms[i]? = some s → defined s = true → g.symoffset.toNat ≤ i
  chain_length : g.symoffset.toNat + g.chain.length = syms.length
  grouped : ∀ (i j k : ℕ) x y z, g.symoffset.toNat ≤ i → i ≤ j → j ≤ k → syms[i]? = some x →
    syms[j]? = some y → syms[k]? = some z → g.bucket x = g.bucket z → g.bucket y = g.bucket x
  hash : ∀ (c : ℕ) h s, g.chain[c]? = some h → syms[g.symoffset.toNat + c]? = some s →
    h ||| 1 = gnuHash s.name ||| 1
  last : ∀ (c : ℕ) h s, g.chain[c]? = some h → syms[g.symoffset.toNat + c]? = some s →
    (h &&& 1 ≠ 0 ↔ ∀ s', syms[g.symoffset.toNat + c + 1]? = some s' → g.bucket s' ≠ g.bucket s)
  empty : ∀ b : UInt32, g.buckets[b.toNat]? = some 0 → ∀ (i : ℕ) s, g.symoffset.toNat ≤ i →
    syms[i]? = some s → g.bucket s ≠ b
  head : ∀ b h : UInt32, g.buckets[b.toNat]? = some h → h ≠ 0 → g.symoffset.toNat ≤ h.toNat ∧
    (∃ s, syms[h.toNat]? = some s ∧ g.bucket s = b) ∧
    ∀ (i : ℕ) s, g.symoffset.toNat ≤ i → syms[i]? = some s → g.bucket s = b → h.toNat ≤ i
  filter : ∀ (i : ℕ) s w, g.symoffset.toNat ≤ i → syms[i]? = some s →
    g.bloom[(gnuHash s.name / 64 % g.bloomSize).toNat]? = some w →
    w &&& bloomMask (gnuHash s.name) g.shift = bloomMask (gnuHash s.name) g.shift

def elfStep (h : UInt32) (c : UInt8) : UInt32 :=
  let h := h <<< 4 + c.toUInt32
  let g := h &&& 0xf0000000
  (h ^^^ g >>> 24) &&& ~~~g

/-- The hash function of the ELF specification. -/
def elfHash (s : Name) : UInt32 := s.foldl elfStep 0

structure SysvSection where
  nbucket : UInt32
  nchain : UInt32
  bucket : List UInt32
  chain : List UInt32

def SysvSection.words (g : SysvSection) : List UInt32 :=
  [g.nbucket, g.nchain] ++ g.bucket ++ g.chain

/-- The symbols from `i` on along the chain are those of the list. -/
def Follows (chain : List UInt32) : UInt32 → List UInt32 → Prop
  | i, [] => i = 0
  | i, j :: l => i = j ∧ j ≠ 0 ∧ ∃ k, chain[j.toNat]? = some k ∧ Follows chain k l

/-- The section is built for a symbol table: every symbol but the first is in the chain of its
bucket. -/
structure SysvSection.WellFormed (g : SysvSection) (syms : List Sym) : Prop where
  length : syms.length < 2 ^ 32
  nbucket : 0 < g.nbucket
  bucket_length : g.bucket.length = g.nbucket.toNat
  chain_length : g.chain.length = syms.length
  first : ∀ s, syms[0]? = some s → defined s = false
  chains : ∀ b h : UInt32, g.bucket[b.toNat]? = some h → ∃ l : List UInt32, Follows g.chain h l ∧
    l.Nodup ∧ ∀ i : UInt32, i ≠ 0 → ∀ s, syms[i.toNat]? = some s → elfHash s.name % g.nbucket = b →
      i ∈ l

/-- The object carries a well-formed section, and with it the memory behind it. -/
def WellFormed (d : Object) : Prop :=
  (∃ g ht, d.ghashtab = some ht ∧ GnuSection.words g <+: ht ∧ g.WellFormed d.syms) ∨
  (d.ghashtab = none ∧ ∃ g ht, d.hashtab = some ht ∧ SysvSection.words g <+: ht ∧
    g.WellFormed d.syms)

/-! ## The two forms of the ELF hash -/

/-- The high bits go into the low ones, whether or not they are cleared at once. -/
theorem fold_high (x : BitVec 32) : (x ^^^ (x >>> 24 &&& 0xf0#32)) &&& 0xfffffff#32 =
    (x ^^^ (x &&& 0xf0000000#32) >>> 24) &&& ~~~(x &&& 0xf0000000#32) := by
  have h1 : ∀ i < 32, (0xf0#32).getLsbD i = decide (4 ≤ i ∧ i < 8) := by decide
  have h2 : ∀ i < 32, (0xfffffff#32).getLsbD i = decide (i < 28) := by decide
  have h3 : ∀ i < 32, (0xf0000000#32).getLsbD i = decide (28 ≤ i) := by decide
  apply BitVec.eq_of_getLsbD_eq
  intro i hi
  simp only [BitVec.getLsbD_and, BitVec.getLsbD_xor, BitVec.getLsbD_ushiftRight, BitVec.getLsbD_not,
    h1 i hi, h2 i hi, h3 i hi, hi, decide_true, Bool.true_and]
  have hhigh : decide (28 ≤ i) = !decide (i < 28) := by
    rw [← decide_not]
    exact decide_eq_decide.mpr (by omega)
  rcases lt_or_ge i 8 with h8 | h8
  · have hlow : decide (i < 28) = true := decide_eq_true (by omega)
    have hsame : decide (28 ≤ 24 + i) = decide (4 ≤ i ∧ i < 8) := decide_eq_decide.mpr (by omega)
    rw [h3 (24 + i) (by omega), hhigh, hlow, hsame]
    simp
  · have hmid : decide (4 ≤ i ∧ i < 8) = false := decide_eq_false (by omega)
    have hout : x.getLsbD (24 + i) = false := BitVec.getLsbD_of_ge _ _ (by omega)
    rw [hhigh, hmid, hout]
    cases x.getLsbD i <;> cases decide (i < 28) <;> rfl

theorem sixteen_mul (h : UInt32) : (16 : UInt32) * h = (h &&& 0xfffffff) <<< 4 := by
  rw [← UInt32.toNat_inj]
  have hand : (h &&& 0xfffffff).toNat = h.toNat % 2 ^ 28 := and_two_pow_sub_one_eq_mod _ 28
  have h16 : (16 : UInt32).toNat = 16 := rfl
  have h4 : (4 : UInt32).toNat % 32 = 4 := rfl
  rw [UInt32.toNat_mul, UInt32.toNat_shiftLeft, hand, shiftLeft_eq, h16, h4]
  omega

theorem foldl_sysvStep : ∀ (s : Name) (h h' : UInt32), h' &&& 0xfffffff = h →
    s.foldl sysvStep h' &&& 0xfffffff = s.foldl elfStep h
  | [], _, _, hh => hh
  | c :: s, h, h', hh => by
    refine foldl_sysvStep s _ _ ?_
    rw [sysvStep, elfStep, sixteen_mul, hh, ← UInt32.toBitVec_inj]
    exact fold_high (h <<< 4 + c.toUInt32).toBitVec

/-! ## Reading a section -/

variable {α : Type}

theorem getElem?_of_front {w ht : List α} (h : w <+: ht) {i : ℕ} (hi : i < w.length) :
    ht[i]? = w[i]? := by
  obtain ⟨r, rfl⟩ := h
  exact getElem?_append_left hi

theorem flatMap_pair {β : Type} (a b : α → β) : ∀ (l : List α) (j : ℕ),
    (l.flatMap fun w => [a w, b w])[2 * j]? = (l[j]?).map a ∧
      (l.flatMap fun w => [a w, b w])[2 * j + 1]? = (l[j]?).map b
  | [], j | w :: l, 0 => by simp
  | w :: l, j + 1 => flatMap_pair a b l j

theorem length_flatMap_pair {β : Type} (a b : α → β) (l : List α) :
    (l.flatMap fun w => [a w, b w]).length = 2 * l.length := by
  induction l with
  | nil => rfl
  | cons w l ih =>
    rw [flatMap_cons, length_append, ih, length_cons]
    simp only [length_cons, length_nil]
    omega

theorem halves (w : UInt64) :
    w.toUInt32.toUInt64 ||| (w >>> 32).toUInt32.toUInt64 <<< 32 = w := by
  rw [← UInt64.toNat_inj]
  have hlt := w.toNat_lt
  have hlo : w.toUInt32.toUInt64.toNat = w.toNat % 2 ^ 32 := by
    rw [UInt32.toNat_toUInt64, UInt64.toNat_toUInt32]
  have h32 : (32 : UInt64).toNat % 64 = 32 := rfl
  have hsh : (w >>> 32).toNat = w.toNat / 2 ^ 32 := by
    rw [UInt64.toNat_shiftRight, h32, shiftRight_eq_div_pow]
  have hhi : (w >>> 32).toUInt32.toUInt64.toNat = w.toNat / 2 ^ 32 := by
    rw [UInt32.toNat_toUInt64, UInt64.toNat_toUInt32, hsh]
    omega
  have hup : ((w >>> 32).toUInt32.toUInt64 <<< 32).toNat = 2 ^ 32 * (w.toNat / 2 ^ 32) := by
    rw [UInt64.toNat_shiftLeft, hhi, h32, shiftLeft_eq]
    omega
  rw [UInt64.toNat_or, hlo, hup, Nat.or_comm,
    ← two_pow_add_eq_or_of_lt (mod_lt _ (Nat.two_pow_pos 32))]
  omega

variable {syms : List Sym} {ht : List UInt32}

section Gnu

variable {g : GnuSection}

/-- The words in front of the buckets. -/
def GnuSection.front (g : GnuSection) : List UInt32 :=
  [g.nbuckets, g.symoffset, g.bloomSize, g.shift] ++
    g.bloom.flatMap (fun w : UInt64 => [w.toUInt32, (w >>> 32).toUInt32])

theorem GnuSection.length_front (g : GnuSection) : g.front.length = 4 + 2 * g.bloom.length := by
  rw [front, length_append, length_flatMap_pair]
  rfl

theorem GnuSection.words_eq (g : GnuSection) : g.words = g.front ++ g.buckets ++ g.chain := rfl

theorem GnuSection.length_words (g : GnuSection) :
    g.words.length = 4 + 2 * g.bloom.length + g.buckets.length + g.chain.length := by
  rw [words_eq, length_append, length_append, length_front]

theorem header_eq (hp : g.words <+: ht) : ht[0]? = some g.nbuckets ∧ ht[1]? = some g.symoffset ∧
    ht[2]? = some g.bloomSize ∧ ht[3]? = some g.shift := by
  have hlen := g.length_words
  rw [getElem?_of_front hp (by omega), getElem?_of_front hp (by omega),
    getElem?_of_front hp (by omega), getElem?_of_front hp (by omega)]
  exact ⟨rfl, rfl, rfl, rfl⟩

theorem bloomWord_eq (hp : g.words <+: ht) {j : ℕ} (hj : j < g.bloom.length) :
    bloomWord ht j = g.bloom[j]? := by
  have hlen := g.length_words
  have hfront := g.length_front
  have hread : ∀ i < 2 * g.bloom.length, ht[4 + i]? =
      (g.bloom.flatMap fun w : UInt64 => [w.toUInt32, (w >>> 32).toUInt32])[i]? := by
    intro i hi
    rw [getElem?_of_front hp (by omega), g.words_eq, append_assoc,
      getElem?_append_left (by omega), GnuSection.front, add_comm]
    rfl
  obtain ⟨hlo, hhi⟩ := flatMap_pair (fun w : UInt64 => w.toUInt32)
    (fun w : UInt64 => (w >>> 32).toUInt32) g.bloom j
  rw [bloomWord, hread (2 * j) (by omega), add_assoc, hread (2 * j + 1) (by omega), hlo, hhi,
    getElem?_eq_getElem hj]
  exact congrArg some (halves _)

theorem bucket_eq (hp : g.words <+: ht) {b : ℕ} (hb : b < g.buckets.length) :
    ht[4 + 2 * g.bloom.length + b]? = g.buckets[b]? := by
  have hlen := g.length_words
  have hfront := g.length_front
  rw [getElem?_of_front hp (by omega), g.words_eq,
    getElem?_append_left (by rw [length_append]; omega),
    getElem?_append_right (by omega), hfront, Nat.add_sub_cancel_left]

theorem chain_eq (hp : g.words <+: ht) {c : ℕ} (hc : c < g.chain.length) :
    ht[4 + 2 * g.bloom.length + g.buckets.length + c]? = g.chain[c]? := by
  have hlen := g.length_words
  have hboth : (g.front ++ g.buckets).length = 4 + 2 * g.bloom.length + g.buckets.length := by
    rw [length_append, g.length_front]
  rw [getElem?_of_front hp (by omega), g.words_eq, getElem?_append_right (by omega), hboth,
    Nat.add_sub_cancel_left]

/-! ## The chain of a bucket -/

/-- The lookup gave the right answer. -/
def Finds (syms : List Sym) (n : Name) (r : Option UInt32) : Prop :=
  (∀ k, r = some k → ∃ s, syms[k.toNat]? = some s ∧ defines n s = true) ∧
    (r = none → ∀ s ∈ syms, defines n s = false)

/-- The hash is compared first, which never hides a definition. -/
theorem hit_eq {n : Name} {i h2 : UInt32} {s : Sym} (hs : syms[i.toNat]? = some s)
    (hh : h2 ||| 1 = gnuHash s.name ||| 1) :
    hit syms (mkname n) i h2 = some (defines n s) := by
  unfold hit
  split_ifs with heq
  · rw [hs]
    rfl
  · refine congrArg some (.symm (eq_false_iff.mpr fun hd => heq ?_))
    have hname : s.name = n := of_decide_eq_true (and_eq_true_iff.mp hd).2
    rw [hh, hname]
    rfl

theorem gnuWalk_spec (hg : g.WellFormed syms) (hp : g.words <+: ht) (n : Name) :
    ∀ (fuel : ℕ) (i : UInt32) (x : Sym), g.symoffset.toNat ≤ i.toNat → syms[i.toNat]? = some x →
      syms.length ≤ i.toNat + fuel →
      ∃ r, gnuWalk syms ht (mkname n) (4 + 2 * g.bloomSize.toNat + g.nbuckets.toNat) g.symoffset
          fuel i = some r ∧
        (∀ k, r = some k → ∃ s, syms[k.toNat]? = some s ∧ defines n s = true) ∧
        (r = none → ∀ (k : ℕ) s, i.toNat ≤ k → syms[k]? = some s → g.bucket s = g.bucket x →
          defines n s = false)
  | 0, i, x, _, hx, hfuel => by
    have := (List.getElem?_eq_some_iff.mp hx).1
    omega
  | fuel + 1, i, x, hi, hx, hfuel => by
    have hlt : i.toNat < syms.length := (List.getElem?_eq_some_iff.mp hx).1
    have hlen := hg.chain_length
    have hsub : (i - g.symoffset).toNat = i.toNat - g.symoffset.toNat :=
      UInt32.toNat_sub_of_le _ _ (UInt32.le_iff_toNat_le.mpr hi)
    obtain ⟨c, hc⟩ := Nat.exists_eq_add_of_le hi
    have hclt : c < g.chain.length := by omega
    obtain ⟨h2, hh2⟩ : ∃ h2, g.chain[c]? = some h2 := ⟨_, getElem?_eq_getElem hclt⟩
    have hread : ht[4 + 2 * g.bloomSize.toNat + g.nbuckets.toNat + (i - g.symoffset).toNat]? =
        some h2 := by
      rw [hsub, hc, Nat.add_sub_cancel_left, ← hg.bloom_length, ← hg.buckets_length,
        chain_eq hp hclt, hh2]
    have hx' : syms[g.symoffset.toNat + c]? = some x := hc ▸ hx
    have hlast := hg.last c h2 x hh2 hx'
    rw [gnuWalk, hread]
    simp only [hit_eq hx (hg.hash c h2 x hh2 hx')]
    cases hd : defines n x with
    | true => exact ⟨some i, rfl, fun k hk => ⟨x, by cases hk; exact hx, hd⟩, nofun⟩
    | false =>
      -- what lies behind `i` in the bucket starts at the next symbol
      have hnext : ∀ (k : ℕ) s, i.toNat < k → syms[k]? = some s → g.bucket s = g.bucket x →
          ∃ y, syms[i.toNat + 1]? = some y ∧ g.bucket y = g.bucket x := by
        intro k s hk hs hb
        have hklt := (List.getElem?_eq_some_iff.mp hs).1
        obtain ⟨y, hy⟩ : ∃ y, syms[i.toNat + 1]? = some y :=
          ⟨_, getElem?_eq_getElem (by omega)⟩
        exact ⟨y, hy, hg.grouped _ _ _ x y s hi (le_succ _) hk hx hy hs hb.symm⟩
      by_cases hbit : h2 &&& 1 ≠ 0
      · refine ⟨none, by simp [hbit], nofun, fun _ k s hk hs hb => ?_⟩
        rcases lt_or_eq_of_le hk with hk | rfl
        · obtain ⟨y, hy, hyb⟩ := hnext k s hk hs hb
          exact absurd hyb (hlast.mp hbit y (by rw [← hc]; exact hy))
        · rw [hx] at hs
          cases hs
          exact hd
      · obtain ⟨y, hy, hyb⟩ : ∃ y, syms[i.toNat + 1]? = some y ∧ g.bucket y = g.bucket x := by
          rw [hlast] at hbit
          push Not at hbit
          obtain ⟨y, hy, hyb⟩ := hbit
          exact ⟨y, by rw [hc]; exact hy, hyb⟩
        have hadd : (i + 1).toNat = i.toNat + 1 := by
          have := hg.length
          rw [UInt32.toNat_add]
          exact mod_eq_of_lt (by change i.toNat + 1 < 2 ^ 32; omega)
        obtain ⟨r, hr, h1, h3⟩ :=
          gnuWalk_spec hg hp n fuel (i + 1) y (by omega) (by rw [hadd]; exact hy)
          (by omega)
        refine ⟨r, by simpa [hbit] using hr, h1, fun hrn k s hk hs hb => ?_⟩
        rcases lt_or_eq_of_le hk with hk | rfl
        · exact h3 hrn k s (by omega) hs (hb.trans hyb.symm)
        · rw [hx] at hs
          cases hs
          exact hd

theorem gnuLookup_spec (hg : g.WellFormed syms) (hp : g.words <+: ht) (n : Name) :
    ∃ r, gnuLookup syms ht (mkname n) = some r ∧ Finds syms n r := by
  obtain ⟨h0, h1, h2, h3⟩ := header_eq hp
  have hbs : 0 < g.bloomSize.toNat := UInt32.lt_iff_toNat_lt.mp hg.bloomSize
  have hnb : 0 < g.nbuckets.toNat := UInt32.lt_iff_toNat_lt.mp hg.nbuckets
  have hok : ¬ (g.nbuckets = 0 ∨ g.bloomSize = 0 ∨ 32 ≤ g.shift) := by
    rintro (h | h | h)
    · rw [h] at hnb
      exact lt_irrefl _ hnb
    · rw [h] at hbs
      exact lt_irrefl _ hbs
    · exact absurd hg.shift (UInt32.not_lt.mpr h)
  -- a definition is from `symoffset` on, in the bucket of the name
  have hdef : ∀ s ∈ syms, defines n s = true → ∃ i : ℕ, g.symoffset.toNat ≤ i ∧ syms[i]? = some s ∧
      s.name = n := by
    intro s hs hd
    obtain ⟨hd, hname⟩ := and_eq_true_iff.mp hd
    obtain ⟨i, hi⟩ := mem_iff_getElem?.mp hs
    exact ⟨i, hg.covers i s hi hd, hi, of_decide_eq_true hname⟩
  have hnone :
      (∀ i s, g.symoffset.toNat ≤ i → syms[i]? = some s → s.name ≠ n) → Finds syms n none := by
    refine fun h => ⟨nofun, fun _ s hs => eq_false_iff.mpr fun hd => ?_⟩
    obtain ⟨i, hi, his, hname⟩ := hdef s hs hd
    exact h i s hi his hname
  have hj : ((mkname n).gh / 64 % g.bloomSize).toNat < g.bloom.length := by
    rw [hg.bloom_length, UInt32.toNat_mod]
    exact mod_lt _ hbs
  have hb : ((mkname n).gh % g.nbuckets).toNat < g.buckets.length := by
    rw [hg.buckets_length, UInt32.toNat_mod]
    exact mod_lt _ hnb
  obtain ⟨w, hw⟩ : ∃ w, g.bloom[((mkname n).gh / 64 % g.bloomSize).toNat]? = some w :=
    ⟨_, getElem?_eq_getElem hj⟩
  obtain ⟨i, hi⟩ : ∃ i, g.buckets[((mkname n).gh % g.nbuckets).toNat]? = some i :=
    ⟨_, getElem?_eq_getElem hb⟩
  have hhead := bucket_eq hp hb
  rw [hg.bloom_length, hi] at hhead
  unfold gnuLookup
  rw [h0, h1, h2, h3]
  simp only [if_neg hok, bloomWord_eq hp hj, hw, hhead]
  by_cases hbloom : w &&& bloomMask (mkname n).gh g.shift ≠ bloomMask (mkname n).gh g.shift
  · refine ⟨none, if_pos hbloom, hnone fun k s hk hs hname => hbloom ?_⟩
    have := hg.filter k s w hk hs (by rw [hname]; exact hw)
    rwa [hname] at this
  · rw [if_neg hbloom]
    by_cases hzero : i = 0
    · refine ⟨none, if_pos hzero, hnone fun k s hk hs hname => ?_⟩
      refine hg.empty _ (hzero ▸ hi) k s hk hs ?_
      rw [GnuSection.bucket, hname]
      rfl
    · rw [if_neg hzero]
      obtain ⟨hso, ⟨x, hx, hxb⟩, hfirst⟩ := hg.head _ i hi hzero
      have hfuel : syms.length ≤ i.toNat + ht.length := by
        have h4 := hg.chain_length
        have h5 := g.length_words
        have h6 := hp.length_le
        omega
      obtain ⟨r, hr, hr1, hr2⟩ := gnuWalk_spec hg hp n ht.length i x hso hx hfuel
      refine ⟨r, hr, hr1, fun hrn s hs => eq_false_iff.mpr fun hd => ?_⟩
      obtain ⟨k, hk, hks, hname⟩ := hdef s hs hd
      have hbk : g.bucket s = (mkname n).gh % g.nbuckets := by
        rw [GnuSection.bucket, hname]
        rfl
      rw [hr2 hrn k s (hfirst k s hk hks hbk) hks (hbk.trans hxb.symm)] at hd
      exact false_ne_true hd

end Gnu

section Sysv

variable {g : SysvSection}

theorem SysvSection.length_words (g : SysvSection) :
    g.words.length = 2 + g.bucket.length + g.chain.length := by
  rw [words, length_append, length_append]
  rfl

theorem sysvBucket_eq (hp : g.words <+: ht) {b : ℕ} (hb : b < g.bucket.length) :
    ht[2 + b]? = g.bucket[b]? := by
  have hlen := g.length_words
  rw [getElem?_of_front hp (by omega), SysvSection.words, append_assoc,
    getElem?_append_right (le_add_right 2 b)]
  rw [length_cons, length_singleton, Nat.add_sub_cancel_left,
    getElem?_append_left hb]

theorem sysvChain_eq (hp : g.words <+: ht) {c : ℕ} (hc : c < g.chain.length) :
    ht[2 + g.bucket.length + c]? = g.chain[c]? := by
  have hlen := g.length_words
  have hfront : ([g.nbucket, g.nchain] ++ g.bucket).length = 2 + g.bucket.length := by
    rw [length_append]
    rfl
  rw [getElem?_of_front hp (by omega), SysvSection.words, getElem?_append_right (by omega),
    hfront, Nat.add_sub_cancel_left]

theorem Follows.lt_length {chain : List UInt32} : ∀ {l : List UInt32} {i : UInt32},
    Follows chain i l → ∀ j ∈ l, j.toNat < chain.length
  | k :: l, i, ⟨_, _, m, hm, hf⟩, j, hj => by
    rcases mem_cons.mp hj with rfl | hj
    · exact (List.getElem?_eq_some_iff.mp hm).1
    · exact hf.lt_length j hj

theorem Follows.length_le {chain l : List UInt32} {i : UInt32} (hf : Follows chain i l)
    (hl : l.Nodup) : l.length ≤ chain.length := by
  have hnd : (l.map UInt32.toNat).Nodup := hl.map fun _ _ h => UInt32.toNat_inj.mp h
  have hsub : l.map UInt32.toNat ⊆ range chain.length := by
    intro m hm
    obtain ⟨j, hj, rfl⟩ := mem_map.mp hm
    exact mem_range.mpr (hf.lt_length j hj)
  have := (subperm_of_subset hnd hsub).length_le
  rwa [length_map, length_range] at this

theorem sysvWalk_spec (hg : g.WellFormed syms) (hp : g.words <+: ht) (n : Name) :
    ∀ (l : List UInt32) (fuel : ℕ) (i : UInt32), Follows g.chain i l → l.length < fuel →
      ∃ r, sysvWalk syms ht (mkname n) (2 + g.nbucket.toNat) fuel i = some r ∧
        (∀ k, r = some k → ∃ s, syms[k.toNat]? = some s ∧ defines n s = true) ∧
        (r = none → ∀ k ∈ l, ∀ s, syms[k.toNat]? = some s → defines n s = false)
  | _, 0, _, _, hfuel => by omega
  | [], fuel + 1, i, hf, _ => by
    obtain rfl : i = 0 := hf
    exact ⟨none, rfl, nofun, fun _ k hk => absurd hk not_mem_nil⟩
  | j :: l, fuel + 1, i, hf, hfuel => by
    obtain ⟨rfl, hne, k, hk, hf⟩ := hf
    have hlt : i.toNat < g.chain.length := (List.getElem?_eq_some_iff.mp hk).1
    obtain ⟨x, hx⟩ : ∃ x, syms[i.toNat]? = some x :=
      ⟨_, getElem?_eq_getElem (hg.chain_length ▸ hlt)⟩
    have hread := sysvChain_eq hp hlt
    rw [hg.bucket_length, hk] at hread
    rw [sysvWalk, if_neg hne, hx]
    simp only [hread]
    cases hd : defines n x with
    | true =>
      refine ⟨some i, by rw [if_pos]; exact hd, fun k hk => ⟨x, ?_, hd⟩, nofun⟩
      cases hk
      exact hx
    | false =>
      obtain ⟨r, hr, h1, h2⟩ := sysvWalk_spec hg hp n l fuel k hf (lt_of_succ_lt_succ hfuel)
      refine ⟨r, ?_, h1, fun hrn m hm s hs => ?_⟩
      · rw [if_neg]
        · exact hr
        · exact fun h => false_ne_true (hd.symm.trans h)
      · rcases mem_cons.mp hm with rfl | hm
        · rw [hx] at hs
          cases hs
          exact hd
        · exact h2 hrn m hm s hs

theorem sysvLookup_spec (hg : g.WellFormed syms) (hp : g.words <+: ht) (n : Name) :
    ∃ r, sysvLookup syms ht (mkname n) = some r ∧ Finds syms n r := by
  have hlen := g.length_words
  have hnb : 0 < g.nbucket.toNat := UInt32.lt_iff_toNat_lt.mp hg.nbucket
  have h0 : ht[0]? = some g.nbucket := by
    rw [getElem?_of_front hp (by omega)]
    rfl
  have hb : ((mkname n).sh % g.nbucket).toNat < g.bucket.length := by
    rw [hg.bucket_length, UInt32.toNat_mod]
    exact mod_lt _ hnb
  obtain ⟨i, hi⟩ : ∃ i, g.bucket[((mkname n).sh % g.nbucket).toNat]? = some i :=
    ⟨_, getElem?_eq_getElem hb⟩
  obtain ⟨l, hf, hl, hmem⟩ := hg.chains _ i hi
  have hfuel : l.length < ht.length + 1 := by
    have := hf.length_le hl
    have := hp.length_le
    omega
  obtain ⟨r, hr, h1, h2⟩ := sysvWalk_spec hg hp n l _ i hf hfuel
  have hne : g.nbucket ≠ 0 := by
    rintro h
    rw [h] at hnb
    exact lt_irrefl _ hnb
  unfold sysvLookup
  rw [h0]
  simp only [if_neg hne, sysvBucket_eq hp hb, hi]
  refine ⟨r, hr, h1, fun hrn s hs => eq_false_iff.mpr fun hd => ?_⟩
  obtain ⟨hdef, hname⟩ := and_eq_true_iff.mp hd
  obtain ⟨m, hm⟩ := mem_iff_getElem?.mp hs
  have hmlt := (List.getElem?_eq_some_iff.mp hm).1
  have hmn : (UInt32.ofNat m).toNat = m := UInt32.toNat_ofNat_of_lt' (lt_trans hmlt hg.length)
  have hm0 : UInt32.ofNat m ≠ 0 := by
    rintro h
    rw [h] at hmn
    have hz : syms[0]? = some s := by
      rw [← hm, ← hmn]
      rfl
    rw [hg.first s hz] at hdef
    exact false_ne_true hdef
  have hin : UInt32.ofNat m ∈ l := by
    refine hmem _ hm0 s (hmn.symm ▸ hm) ?_
    rw [of_decide_eq_true hname]
    exact congrArg (· % g.nbucket) (foldl_sysvStep n 0 0 rfl).symm
  rw [h2 hrn _ hin s (hmn.symm ▸ hm)] at hd
  exact false_ne_true hd

end Sysv

/-! ## The two sections -/

theorem lookupIn_finds {d : Object} (hd : WellFormed d) (n : Name) :
    ∃ r, lookupIn d (mkname n) = some r ∧ Finds d.syms n r := by
  unfold lookupIn
  rcases hd with ⟨g, ht, hht, hp, hg⟩ | ⟨hnone, g, ht, hht, hp, hg⟩
  · rw [hht]
    exact gnuLookup_spec hg hp n
  · rw [hnone, hht]
    exact sysvLookup_spec hg hp n

theorem Finds.isSome_iff {n : Name} {r : Option UInt32} (hF : Finds syms n r) :
    r.isSome = true ↔ ∃ s ∈ syms, defines n s = true := by
  constructor
  · intro h
    obtain ⟨k, rfl⟩ := Option.isSome_iff_exists.mp h
    obtain ⟨s, hs, hds⟩ := hF.1 k rfl
    exact ⟨s, mem_of_getElem? hs, hds⟩
  · rintro ⟨s, hs, hds⟩
    cases r with
    | some k => rfl
    | none =>
      have := hF.2 rfl s hs
      rw [hds] at this
      cases this

theorem defines_iff {n : Name} {s : Sym} : defines n s = true ↔ defined s = true ∧ s.name = n := by
  rw [defines, and_eq_true, decide_eq_true_eq]

/-- What the rest of the model of the linker knows of an object: the names that it defines. -/
theorem lookupIn_defs {d : Object} (hd : WellFormed d) {o : Dso}
    (ho : o.elf.defs.map (·.name) = (d.syms.filter defined).map (·.name)) (n : Name) :
    ∃ r, lookupIn d (mkname n) = some r ∧ r.isSome = (Ldso.lookupIn o n).isSome := by
  obtain ⟨r, hr, hF⟩ := lookupIn_finds hd n
  refine ⟨r, hr, ?_⟩
  have hmem : n ∈ o.elf.defs.map (·.name) ↔ ∃ s ∈ d.syms, defines n s = true := by
    rw [ho, mem_map]
    constructor
    · rintro ⟨s, hs, hn⟩
      exact ⟨s, (mem_filter.mp hs).1, defines_iff.mpr ⟨(mem_filter.mp hs).2, hn⟩⟩
    · rintro ⟨s, hs, hds⟩
      exact ⟨s, mem_filter.mpr ⟨hs, (defines_iff.mp hds).1⟩, (defines_iff.mp hds).2⟩
  rw [Bool.eq_iff_iff, hF.isSome_iff, ← hmem, Ldso.lookupIn, find?_isSome, mem_map]
  simp only [decide_eq_true_eq]

/-- Look at every symbol. -/
def linearSearch (syms : List Sym) (n : Name) : Option ℕ := syms.findIdx? (defines n)

/-- **Hashed lookup is linear search**: it returns a definition of the name if the symbol table
holds one, whichever section the object carries. -/
theorem lookupIn_linear {d : Object} (hd : WellFormed d) (n : Name) :
    ∃ r, lookupIn d (mkname n) = some r ∧
      (∀ k, r = some k → ∃ s, d.syms[k.toNat]? = some s ∧ defined s = true ∧ s.name = n) ∧
      (r.isSome = true ↔ ∃ s ∈ d.syms, defined s = true ∧ s.name = n) ∧
      r.isSome = (linearSearch d.syms n).isSome := by
  obtain ⟨r, hr, hF⟩ := lookupIn_finds hd n
  have hiff := hF.isSome_iff
  refine ⟨r, hr, fun k hk => ?_, ?_, ?_⟩
  · obtain ⟨s, hs, hds⟩ := hF.1 k hk
    exact ⟨s, hs, defines_iff.mp hds⟩
  · simp only [defines_iff] at hiff
    exact hiff
  · rw [Bool.eq_iff_iff, hiff, linearSearch, findIdx?_isSome, any_eq_true]

/-- Three functions `g`, `f` and `h`. -/
def threeSyms : List Sym := [⟨[], 0, 0⟩, ⟨[103], 0x12, 1⟩, ⟨[102], 0x12, 1⟩, ⟨[104], 0x12, 1⟩]

/-- Two buckets, of which the second one holds `f` and `h`. -/
def gnuThree : GnuSection := ⟨2, 1, 1, 6, [16791552], [1, 2], [177677, 177674, 177677]⟩

/-- Two buckets, of which the first one holds `f` and `h`. -/
def sysvThree : SysvSection := ⟨2, 4, [2, 1], [0, 0, 3, 0]⟩

section

variable {α : Type} {l : List α} {i : ℕ} {x : α} (h : l[i]? = some x)
include h

theorem index_lt : i < l.length := (List.getElem?_eq_some_iff.mp h).1

theorem getD_index (d : α) : l.getD i d = x := by rw [getD_eq_getElem?_getD, h, Option.getD_some]

end

theorem gnuThree_wellFormed : gnuThree.WellFormed threeSyms where
  length := by decide
  nbuckets := by decide
  buckets_length := rfl
  bloomSize := by decide
  bloom_length := rfl
  shift := by decide
  symoffset := by decide
  chain_length := rfl
  covers i s hs := by
    have h : ∀ i < 4, ∀ s ∈ threeSyms[i]?, defined s = true → 1 ≤ i := by decide
    exact h i (index_lt hs) s hs
  grouped i j k x y z hi hij hjk hx hy hz := by
    have h : ∀ i < 4, ∀ x ∈ threeSyms[i]?, ∀ j < 4, ∀ y ∈ threeSyms[j]?, ∀ k < 4,
        ∀ z ∈ threeSyms[k]?, 1 ≤ i → i ≤ j → j ≤ k → gnuThree.bucket x = gnuThree.bucket z →
          gnuThree.bucket y = gnuThree.bucket x := by decide +kernel
    exact h i (index_lt hx) x hx j (index_lt hy) y hy k (index_lt hz) z hz hi hij hjk
  hash c u s hc := by
    have h : ∀ c < 3, ∀ s ∈ threeSyms[1 + c]?,
        gnuThree.chain.getD c 0 ||| 1 = gnuHash s.name ||| 1 := by decide +kernel
    exact getD_index hc 0 ▸ h c (index_lt hc) s
  last c u s hc := by
    have h : ∀ c < 3, ∀ s ∈ threeSyms[1 + c]?, (gnuThree.chain.getD c 0 &&& 1 ≠ 0 ↔
        ∀ s' ∈ threeSyms[1 + c + 1]?, gnuThree.bucket s' ≠ gnuThree.bucket s) := by
      decide +kernel
    exact getD_index hc 0 ▸ h c (index_lt hc) s
  empty b hb := by
    have h : ∀ b < 2, gnuThree.buckets.getD b 0 ≠ 0 := by decide
    exact absurd (getD_index hb 0) (h b.toNat (index_lt hb))
  head b u hb h0 := by
    have h : ∀ b < 2, 1 ≤ (gnuThree.buckets.getD b 0).toNat ∧
        (∃ s ∈ threeSyms, threeSyms[(gnuThree.buckets.getD b 0).toNat]? = some s ∧
          gnuThree.bucket s = UInt32.ofNat b) ∧
        ∀ i < 4, ∀ s ∈ threeSyms[i]?, 1 ≤ i → gnuThree.bucket s = UInt32.ofNat b →
          (gnuThree.buckets.getD b 0).toNat ≤ i := by
      decide +kernel
    obtain ⟨h1, ⟨s, -, h2⟩, h3⟩ := h b.toNat (index_lt hb)
    rw [getD_index hb] at h1 h2 h3
    rw [UInt32.ofNat_toNat] at h2 h3
    exact ⟨h1, ⟨s, h2⟩, fun i s hi hs => h3 i (index_lt hs) s hs hi⟩
  filter i s w hi hs hw := by
    have h : ∀ i < 4, ∀ s ∈ threeSyms[i]?, 1 ≤ i →
        gnuThree.bloom.getD (gnuHash s.name / 64 % 1).toNat 0 &&& bloomMask (gnuHash s.name) 6 =
          bloomMask (gnuHash s.name) 6 := by decide +kernel
    exact getD_index hw 0 ▸ h i (index_lt hs) s hs hi

theorem sysvThree_wellFormed : sysvThree.WellFormed threeSyms where
  length := by decide
  nbucket := by decide
  bucket_length := rfl
  chain_length := rfl
  first s hs := by cases hs; rfl
  chains b u hb := by
    have hchain : ∀ l : List UInt32, (∀ i < 4, ∀ s ∈ threeSyms[i]?, i ≠ 0 →
        elfHash s.name % 2 = b → UInt32.ofNat i ∈ l) → ∀ i : UInt32, i ≠ 0 → ∀ s,
        threeSyms[i.toNat]? = some s → elfHash s.name % 2 = b → i ∈ l := by
      intro l h i hi s hs he
      have := h i.toNat (index_lt hs) s hs (fun h0 => hi (UInt32.toNat_inj.mp h0)) he
      rwa [UInt32.ofNat_toNat] at this
    have hlt : b.toNat < 2 := index_lt hb
    obtain rfl | rfl : b = 0 ∨ b = 1 := by
      simp only [← UInt32.toNat_inj]
      simp
      omega
    · cases hb
      exact ⟨[2, 3], ⟨rfl, by decide, _, rfl, rfl, by decide, _, rfl, rfl⟩, by decide,
        hchain _ (by decide +kernel)⟩
    · cases hb
      exact ⟨[1], ⟨rfl, by decide, _, rfl, rfl⟩, by decide, hchain _ (by decide +kernel)⟩

def threeGnu : Object := ⟨threeSyms, some gnuThree.words, none⟩

def threeSysv : Object := ⟨threeSyms, none, some sysvThree.words⟩

theorem threeGnu_wellFormed : WellFormed threeGnu :=
  .inl ⟨gnuThree, _, rfl, prefix_rfl, gnuThree_wellFormed⟩

theorem threeSysv_wellFormed : WellFormed threeSysv :=
  .inr ⟨rfl, sysvThree, _, rfl, prefix_rfl, sysvThree_wellFormed⟩

theorem lookupIn_linear_h : WellFormed threeGnu ∧ WellFormed threeSysv ∧
    (∃ r, lookupIn threeGnu (mkname [104]) = some r ∧
      r.isSome = (linearSearch threeSyms [104]).isSome) ∧
    ∃ r, lookupIn threeSysv (mkname [104]) = some r ∧
      r.isSome = (linearSearch threeSyms [104]).isSome := by
  obtain ⟨r, hr, -, -, hlin⟩ := lookupIn_linear threeGnu_wellFormed [104]
  obtain ⟨r', hr', -, -, hlin'⟩ := lookupIn_linear threeSysv_wellFormed [104]
  exact ⟨threeGnu_wellFormed, threeSysv_wellFormed, ⟨r, hr, hlin⟩, r', hr', hlin'⟩

end Citadel.Ldso.Symtab
