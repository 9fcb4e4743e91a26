import Citadel.Resolv.Names

/-!
# Parsing an answer

`parse_answer` of `src/resolv.c`. The result also holds the offsets of the records that were
remembered and the number of aliases that were followed.

* `parseAnswer_safe`: whatever the message, only its bytes are read, and no more is written than
  there is room for.
-/

namespace Citadel.Resolv

open List Option

def be16 (m : List UInt8) (i : ℕ) : Parse ℕ := do
  let a ← rd m i
  let b ← rd m (i + 1)
  return a.toNat <<< 8 ||| b.toNat

inductive Family where
  | inet
  | inet6
deriving DecidableEq, Repr

/-- `struct dns_addr`; the scope is zero. -/
structure DnsAddr where
  family : Family
  addr : List UInt8
deriving DecidableEq, Repr

def eqName (a b : List UInt8) : Bool := a.map lower = b.map lower

/-- The questions in front of the answers. -/
def skipQuestions (m : List UInt8) : ℕ → ℕ → Parse ℕ
  | 0, off => .ok off
  | n + 1, off => do
    let r ← getName m off
    if r.1 + 4 > m.length then .error .fail else skipQuestions m n (r.1 + 4)

/-- The offsets of the answer records, at most 64 of them. -/
def recordOffsets (m : List UInt8) : ℕ → ℕ → List ℕ → Parse (List ℕ)
  | 0, _, roff => .ok roff
  | n + 1, off, roff =>
    if roff.length ≥ 64 then .ok roff
    else do
      let r ← getName m off
      if r.1 + 10 > m.length then .error .fail
      else do
        let rdlen ← be16 m (r.1 + 8)
        if r.1 + 10 + rdlen > m.length then .error .fail
        else recordOffsets m n (r.1 + 10 + rdlen) (roff ++ [off])

/-- One hop: the alias that the first `CNAME` record of the name gives. -/
def cnameOf (m : List UInt8) (target : List UInt8) : List ℕ → Parse (Option (List UInt8))
  | [] => .ok none
  | off :: roff =>
    match getName m off with
    | .error .fault => .error .fault
    | .error .fail => cnameOf m target roff
    | .ok (o, name) => do
      let type ← be16 m o
      let cls ← be16 m (o + 2)
      if type = 5 ∧ cls = 1 ∧ eqName name target then do
        let cn ← getName m (o + 10)
        .ok (some cn.2)
      else cnameOf m target roff

/-- The aliases of a name, one after the other: how many there were and the last name. -/
def followCnames (m : List UInt8) (roff : List ℕ) : ℕ → ℕ → List UInt8 → Parse (ℕ × List UInt8)
  | 0, hops, target => .ok (hops, target)
  | n + 1, hops, target => do
    match ← cnameOf m target roff with
    | none => .ok (hops, target)
    | some cn => followCnames m roff n (hops + 1) cn

/-- `n` bytes from offset `i` on. -/
def bytes (m : List UInt8) : ℕ → ℕ → Parse (List UInt8)
  | 0, _ => .ok []
  | n + 1, i => do
    let c ← rd m i
    let cs ← bytes m n (i + 1)
    return c :: cs

/-- The records of the name: the addresses `out` so far, or the name of a `PTR` record. -/
def collect (m target : List UInt8) (qtype max : ℕ) (ptr : Bool) :
    List ℕ → List DnsAddr → Parse (List DnsAddr × Option (List UInt8))
  | [], out => .ok (out, none)
  | off :: roff, out =>
    match getName m off with
    | .error .fault => .error .fault
    | .error .fail => collect m target qtype max ptr roff out
    | .ok (o, name) =>
      if eqName name target then do
        let type ← be16 m o
        let cls ← be16 m (o + 2)
        let rdlen ← be16 m (o + 8)
        if cls ≠ 1 ∨ type ≠ qtype then collect m target qtype max ptr roff out
        else if qtype = T_A ∧ rdlen = 4 ∧ out.length < max then do
          let addr ← bytes m 4 (o + 10)
          collect m target qtype max ptr roff (out ++ [⟨.inet, addr⟩])
        else if qtype = T_AAAA ∧ rdlen = 16 ∧ out.length < max then do
          let addr ← bytes m 16 (o + 10)
          collect m target qtype max ptr roff (out ++ [⟨.inet6, addr⟩])
        else if qtype = T_PTR ∧ ptr then
          match getName m (o + 10) with
          | .error .fault => .error .fault
          | .error .fail => collect m target qtype max ptr roff out
          | .ok (e, p) =>
            if e > 0 ∧ p ≠ [] then .ok (out, some p) else collect m target qtype max ptr roff out
        else collect m target qtype max ptr roff out
      else collect m target qtype max ptr roff out

structure Answer where
  addrs : List DnsAddr
  ptr : Option (List UInt8)
  canon : List UInt8
  records : List ℕ
  hops : ℕ
deriving DecidableEq, Repr

/-- `parse_answer`; `none` stands for `DNS_NXDOMAIN`, the error `fail` for `DNS_FAIL`. -/
def parseAnswer (m qname : List UInt8) (qtype max : ℕ) (ptr : Bool) : Parse (Option Answer) :=
  if m.length < 12 then .error .fail
  else do
    let flags ← rd m 3
    if flags &&& 15 = 3 then .ok none
    else if flags &&& 15 ≠ 0 then .error .fail
    else do
      let qd ← be16 m 4
      let an ← be16 m 6
      let off ← skipQuestions m qd 12
      let roff ← recordOffsets m an off []
      let walk ← followCnames m roff 16 0 qname
      let r ← collect m walk.2 qtype max ptr roff []
      .ok (some { addrs := r.1, ptr := r.2, canon := walk.2, records := roff, hops := walk.1 })

/-! ## Safety -/

variable {m : List UInt8}

theorem safe_be16 {i : ℕ} (h : i + 2 ≤ m.length) : Safe (be16 m i) fun _ => True :=
  .bind ((safe_rd (by omega)).mono fun _ _ =>
    .bind ((safe_rd (by omega)).mono fun _ _ => trivial))

theorem safe_skipQuestions : ∀ (n off : ℕ), Safe (skipQuestions m n off) fun _ => True
  | 0, _ => trivial
  | n + 1, off => by
    refine .bind ((getName_safe m off).mono fun r _ => ?_)
    exact .ite (fun _ => safe_fail) fun _ => safe_skipQuestions n _

/-- A record at this offset lies inside the message. -/
def Inside (m : List UInt8) (off : ℕ) : Prop :=
  ∃ o name rdlen, getName m off = .ok (o, name) ∧ be16 m (o + 8) = .ok rdlen ∧
    o + 10 + rdlen ≤ m.length

theorem safe_recordOffsets : ∀ (n off : ℕ) (roff : List ℕ), (∀ x ∈ roff, Inside m x) →
    roff.length ≤ 64 →
    Safe (recordOffsets m n off roff) fun r => (∀ x ∈ r, Inside m x) ∧ r.length ≤ 64
  | 0, _, roff, hin, hlen => ⟨hin, hlen⟩
  | n + 1, off, roff, hin, hlen => by
    refine .ite (fun _ => ⟨hin, hlen⟩) fun h64 => ?_
    refine (getName_safe m off).bind_of fun r hg => .ite (fun _ => safe_fail) fun hlt => ?_
    refine (safe_be16 (by omega)).bind_of fun rdlen hb => .ite (fun _ => safe_fail) fun hend => ?_
    refine safe_recordOffsets n _ _ (fun x hx => ?_) ?_
    · rcases mem_append.mp hx with hx | hx
      · exact hin x hx
      · rw [mem_singleton.mp hx]
        exact ⟨r.1, r.2, rdlen, hg, hb, not_lt.mp hend⟩
    · rw [length_append, length_singleton]
      omega

theorem safe_cnameOf (target : List UInt8) : ∀ (roff : List ℕ), (∀ x ∈ roff, Inside m x) →
    Safe (cnameOf m target roff) fun r => ∀ cn, r = some cn → cn.length < 256
  | [], _ => nofun
  | off :: roff, hin => by
    obtain ⟨o, name, rdlen, hg, -, hlen⟩ := hin off mem_cons_self
    have ih := safe_cnameOf target roff fun x hx => hin x (mem_cons_of_mem off hx)
    rw [cnameOf, hg]
    refine .bind ((safe_be16 (by omega)).mono fun type _ => ?_)
    refine .bind ((safe_be16 (by omega)).mono fun cls _ => .ite (fun _ => ?_) fun _ => ih)
    refine .bind ((getName_safe m (o + 10)).mono fun cn hcn => ?_)
    intro x hx
    cases hx
    exact lt_of_le_of_lt hcn.2 (by decide)

theorem safe_followCnames {roff : List ℕ} (hin : ∀ x ∈ roff, Inside m x) :
    ∀ (n hops : ℕ) (target : List UInt8), target.length < 256 →
      Safe (followCnames m roff n hops target) fun r => r.1 ≤ hops + n ∧ r.2.length < 256
  | 0, hops, _, ht => ⟨le_rfl, ht⟩
  | n + 1, hops, target, ht => by
    refine .bind ((safe_cnameOf target roff hin).mono fun r hr => ?_)
    cases r with
    | none => exact ⟨by omega, ht⟩
    | some cn =>
      refine (safe_followCnames hin n (hops + 1) cn (hr cn rfl)).mono fun r hr => ⟨?_, hr.2⟩
      omega

theorem safe_bytes : ∀ (n i : ℕ), i + n ≤ m.length → Safe (bytes m n i) fun l => l.length = n
  | 0, _, _ => rfl
  | n + 1, i, h => by
    refine .bind ((safe_rd (by omega)).mono fun c _ => ?_)
    refine .bind ((safe_bytes n (i + 1) (by omega)).mono fun l hl => ?_)
    exact congrArg (· + 1) hl

theorem safe_collect (target : List UInt8) (qtype max : ℕ) (ptr : Bool) :
    ∀ (roff : List ℕ) (out : List DnsAddr), (∀ x ∈ roff, Inside m x) → out.length ≤ max →
      Safe (collect m target qtype max ptr roff out) fun r =>
        r.1.length ≤ max ∧ ∀ p, r.2 = some p → p.length < 256
  | [], out, _, hout => ⟨hout, nofun⟩
  | off :: roff, out, hin, hout => by
    obtain ⟨o, name, rdlen, hg, hrd, hlen⟩ := hin off mem_cons_self
    have hrest : ∀ x ∈ roff, Inside m x := fun x hx => hin x (mem_cons_of_mem off hx)
    have ih := safe_collect target qtype max ptr roff out hrest hout
    have hnext : ∀ a : DnsAddr, out.length < max →
        Safe (collect m target qtype max ptr roff (out ++ [a])) fun r =>
          r.1.length ≤ max ∧ ∀ p, r.2 = some p → p.length < 256 := fun a h =>
      safe_collect target qtype max ptr roff (out ++ [a]) hrest (by
        rw [length_append, length_singleton]
        omega)
    rw [collect, hg]
    refine .ite (fun _ => ?_) fun _ => ih
    refine .bind ((safe_be16 (by omega)).mono fun type _ => ?_)
    refine .bind ((safe_be16 (by omega)).mono fun cls _ => ?_)
    rw [hrd]
    refine .ite (fun _ => ih) fun _ => .ite (fun h4 => ?_) fun _ =>
      .ite (fun h16 => ?_) fun _ => .ite (fun _ => ?_) fun _ => ih
    · refine .bind ((safe_bytes 4 _ ?_).mono fun a _ => hnext _ h4.2.2)
      omega
    · refine .bind ((safe_bytes 16 _ ?_).mono fun a _ => hnext _ h16.2.2)
      omega
    · have hsafe := getName_safe m (o + 10)
      cases hp : getName m (o + 10) with
      | error e =>
        rw [hp] at hsafe
        obtain rfl : e = .fail := hsafe
        exact ih
      | ok r =>
        refine .ite (fun _ => ⟨hout, fun q hq => ?_⟩) fun _ => ih
        cases hq
        exact lt_of_le_of_lt (hsafe.ok hp).2 (by decide)

/-- **Parsing a hostile answer is safe.** -/
theorem parseAnswer_safe (m : List UInt8) {qname : List UInt8} (hq : validHostname qname = true)
    (qtype max : ℕ) (ptr : Bool) :
    (∀ off, Safe (getName m off) fun r => r.1 ≤ m.length ∧ r.2.length < 256) ∧
    Safe (parseAnswer m qname qtype max ptr) fun r => ∀ a, r = some a →
      a.addrs.length ≤ max ∧ a.records.length ≤ 64 ∧ a.hops ≤ 16 ∧ a.canon.length < 256 ∧
      ∀ p, a.ptr = some p → p.length < 256 := by
  have hqlen : qname.length < 256 := by
    rw [validHostname, Bool.and_eq_true, Bool.and_eq_true, decide_eq_true_eq] at hq
    have := of_decide_eq_true hq.1.2
    omega
  refine ⟨fun off => (getName_safe m off).mono fun r hr => ⟨hr.1, by omega⟩, ?_⟩
  refine .ite (fun _ => safe_fail) fun h12 => ?_
  refine .bind ((safe_rd (by omega)).mono fun flags _ => ?_)
  refine .ite (fun _ _ h => absurd h (some_ne_none _).symm) fun _ =>
    .ite (fun _ => safe_fail) fun _ => ?_
  refine .bind ((safe_be16 (by omega)).mono fun qd _ => ?_)
  refine .bind ((safe_be16 (by omega)).mono fun an _ => ?_)
  refine .bind ((safe_skipQuestions qd 12).mono fun off _ => ?_)
  refine .bind ((safe_recordOffsets an off [] (fun x hx => absurd hx not_mem_nil)
    (Nat.zero_le _)).mono fun roff hroff => ?_)
  refine .bind ((safe_followCnames hroff.1 16 0 qname hqlen).mono fun walk hwalk => ?_)
  refine .bind ((safe_collect walk.2 qtype max ptr roff [] hroff.1 (Nat.zero_le _)).mono
    fun r hr => ?_)
  intro a ha
  cases ha
  exact ⟨hr.1, hroff.2, hwalk.1.trans (by omega), hwalk.2, hr.2⟩

/-- A compression pointer to itself. -/
theorem parseAnswer_safe_loop : validHostname [97] = true ∧
    (∀ off, Safe (getName [0, 7, 129, 128, 0, 1, 0, 1, 0, 0, 0, 0, 192, 12] off) fun r =>
      r.1 ≤ 14 ∧ r.2.length < 256) ∧
    Safe (parseAnswer [0, 7, 129, 128, 0, 1, 0, 1, 0, 0, 0, 0, 192, 12] [97] T_A 8 false) fun r =>
      ∀ a, r = some a → a.addrs.length ≤ 8 ∧ a.records.length ≤ 64 ∧ a.hops ≤ 16 ∧
        a.canon.length < 256 ∧ ∀ p, a.ptr = some p → p.length < 256 :=
  ⟨by decide, parseAnswer_safe [0, 7, 129, 128, 0, 1, 0, 1, 0, 0, 0, 0, 192, 12] (by decide) T_A 8
    false⟩

end Citadel.Resolv
