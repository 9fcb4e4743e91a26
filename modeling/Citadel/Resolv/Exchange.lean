import Citadel.Lib.Window
import Mathlib.Data.UInt

/-!
# The exchange with the name servers

`dns_exchange` of `src/resolv.c`: it sends its queries to every configured server, and takes what
arrives on its socket until every query has an answer or the time is over.

The environment decides when the loop wakes up and what arrives. A datagram comes with the
conversation that a TCP connection to each address would have if it were made at that moment, since
a truncated answer is asked for again over TCP while the loop waits. In the conversation, `stream`
is everything that the server sends, and every iteration of the loop of `tcp_query` is told how much
`send` or `recv` are willing to transfer.

Addresses are the 16 bytes of `sin6_addr`. An answer buffer is a memory; its first `al i` bytes are
the answer to query `i`.
-/

namespace Citadel.Resolv

open Citadel.Lib.Window Function

/-- The largest datagram that is read. -/
def ANSZ_UDP : ℕ := 4096

def T_A : ℕ := 1
def T_PTR : ℕ := 12
def T_AAAA : ℕ := 28

def dot : UInt8 := 46

/-! ## Building a query -/

/-- The loop of `mkquery` over the labels of the rest `p` of the name, with the message `q` so far.
Every round takes at least one byte, so a bound of the length of the name is never used up. -/
def mkqueryLoop : ℕ → List UInt8 → List UInt8 → Option (List UInt8)
  | _, [], q => some q
  | 0, _ :: _, _ => none
  | fuel + 1, c :: p, q =>
    let label := (c :: p).takeWhile (· ≠ dot)
    let n := label.length
    if n = 0 ∨ n > 63 ∨ q.length + 1 + n > 12 + 254 then none
    else
      let rest := (c :: p).drop n
      mkqueryLoop fuel (if rest.head? = some dot then rest.tail else rest) (q ++ n.toUInt8 :: label)

/-- The header of a query: the identifier, `RD`, one question. -/
def header (id : ℕ) : List UInt8 :=
  [(id >>> 8).toUInt8, id.toUInt8, 0x01, 0, 0, 1, 0, 0, 0, 0, 0, 0]

/-- What follows the labels: the root, the type and the class `IN`. -/
def trailer (type : ℕ) : List UInt8 := [0, (type >>> 8).toUInt8, type.toUInt8, 0, 1]

/-- `mkquery`; `none` for an unusable name. -/
def mkquery (name : List UInt8) (type id : ℕ) : Option (List UInt8) :=
  if name = [] then none
  else (mkqueryLoop name.length name (header id)).map (· ++ trailer type)

/-! ## Addresses -/

structure Sockaddr where
  port : UInt16
  addr : Vector UInt8 16
  deriving DecidableEq

/-- The IPv4-mapped form of an IPv4 address. -/
def v4mapped (port : UInt16) (a b c d : UInt8) : Sockaddr :=
  ⟨port, #v[0, 0, 0, 0, 0, 0, 0, 0, 0, 0, 0xff, 0xff, a, b, c, d]⟩

/-- `IN6_IS_ADDR_V4MAPPED`. -/
def isV4mapped (s : Sockaddr) : Bool :=
  s.addr.toList.take 12 = [0, 0, 0, 0, 0, 0, 0, 0, 0, 0, 0xff, 0xff]

def sameServer (a b : Sockaddr) : Bool := a.port = b.port ∧ a.addr = b.addr

/-- The sender as the kernel reports it: on a socket of the family `AF_INET6` the first, on one of
the family `AF_INET` the second form. -/
inductive Sender
  | v6 (s : Sockaddr)
  | v4 (port : UInt16) (a b c d : UInt8)

/-- The sender as `dns_exchange` compares it with the servers. -/
def Sender.normalise : Sender → Sockaddr
  | .v6 s => s
  | .v4 port a b c d => v4mapped port a b c d

/-- The part of the configuration that the exchange reads. -/
structure Resconf where
  ns : List Sockaddr
  timeout : ℤ
  attempts : ℤ

/-! ## TCP -/

/-- What the system calls of one iteration of the loop of `tcp_query` answer. -/
structure Iteration where
  /-- The time left. -/
  left : ℤ
  poll : ℤ
  /-- The result of `send` or `recv`, before it is cut to what was asked for and to what is there.
  -/
  n : ℤ
  /-- `errno` is `EAGAIN` after a failure. -/
  again : Bool

structure Conversation where
  /-- `socket` succeeds. -/
  socket : Bool
  /-- `connect` succeeds or is in progress. -/
  connect : Bool
  /-- What the server sends. -/
  stream : List UInt8
  iterations : List Iteration

/-- The variables of the loop of `tcp_query`; `want` is `-1` until the length has been read. -/
structure Tcp where
  sent : ℕ
  got : ℕ
  want : Option ℕ
  lenbuf : List UInt8
  /-- What the server sends and has not been received yet. -/
  stream : List UInt8
  a : ℕ → UInt8

/-- The length in front of a message on a TCP connection. -/
def beLength (l : List UInt8) : ℕ := ((l.getD 0 0).toNat <<< 8) ||| (l.getD 1 0).toNat

/-- The end of `tcp_query`: the answer buffer and the result, `none` for `-1`. -/
abbrev TcpResult := (ℕ → UInt8) × Option ℕ

/-- Reading the length of the message. -/
def tcpLength (it : Iteration) (t : Tcp) : Tcp ⊕ TcpResult :=
  let chunk := t.stream.take (min it.n.toNat (2 - t.got))
  if it.n < 0 then if it.again then .inl t else .inr (t.a, none)
  else if chunk = [] then .inr (t.a, none)
  else
    let lenbuf := t.lenbuf ++ chunk
    let got := t.got + chunk.length
    let stream := t.stream.drop chunk.length
    if got = 2 then
      if beLength lenbuf < 12 then .inr (t.a, none)
      else .inl ⟨t.sent, 0, some (beLength lenbuf), lenbuf, stream, t.a⟩
    else .inl ⟨t.sent, got, none, lenbuf, stream, t.a⟩

/-- Reading the message, of `want` bytes. -/
def tcpMessage (want : ℕ) (it : Iteration) (t : Tcp) : Tcp ⊕ TcpResult :=
  let chunk := t.stream.take (min it.n.toNat (want - t.got))
  if it.n < 0 then if it.again then .inl t else .inr (t.a, none)
  else if chunk = [] then .inr (t.a, none)
  else
    let a := fill t.a t.got chunk
    let got := t.got + chunk.length
    if got = want then .inr (a, some want)
    else .inl ⟨t.sent, got, some want, t.lenbuf, t.stream.drop chunk.length, a⟩

/-- One iteration of the loop of `tcp_query`, for a query that takes `total` bytes with its length:
the variables for the next iteration, or the result. -/
def tcpStep (total : ℕ) (it : Iteration) (t : Tcp) : Tcp ⊕ TcpResult :=
  if it.left ≤ 0 then .inr (t.a, none)
  else if it.poll ≤ 0 then .inl t
  else if t.sent < total then
    if it.n < 0 ∧ it.again = false then .inr (t.a, none)
    else .inl { t with sent := t.sent + min it.n.toNat (total - t.sent) }
  else
    match t.want with
    | none => tcpLength it t
    | some want => tcpMessage want it t

/-- The loop of `tcp_query`; when the iterations end the time is over. -/
def tcpLoop (total : ℕ) : List Iteration → Tcp → TcpResult
  | [], t => (t.a, none)
  | it :: its, t =>
    match tcpStep total it t with
    | .inl t => tcpLoop total its t
    | .inr r => r

/-- `tcp_query` for the query `q`, with the answer buffer `a`. -/
def tcpQuery (conv : Conversation) (q : List UInt8) (a : ℕ → UInt8) : TcpResult :=
  if conv.socket && conv.connect then
    tcpLoop (q.length + 2) conv.iterations ⟨0, 0, none, [], conv.stream, a⟩
  else (a, none)

/-! ## The exchange -/

/-- `x += 32` for an upper case letter. -/
def lower (x : UInt8) : UInt8 := if 65 ≤ x ∧ x ≤ 90 then x + 32 else x

/-- `question_matches`, for an answer `a` of `al` and a query `q` of `ql` bytes. -/
def questionMatches (a q : List UInt8) : Bool :=
  if a.length < q.length ∨ a.getD 0 0 ≠ q.getD 0 0 ∨ a.getD 1 0 ≠ q.getD 1 0 ∨
      a.getD 2 0 &&& 0x80 = 0 ∨ a.getD 4 0 ≠ 0 ∨ a.getD 5 0 ≠ 1 then false
  else (List.range' 12 (q.length - 12)).all fun j => lower (a.getD j 0) = lower (q.getD j 0)

/-- A received datagram, with the TCP conversation that each address would have now. -/
structure Packet where
  sender : Sender
  data : List UInt8
  tcp : Sockaddr → Conversation

/-- The place in the loops of `dns_exchange`. -/
inductive Phase
  /-- At the head of the outer loop. -/
  | head
  /-- In the inner loop, about to call `recvfrom`. -/
  | draining
  | finished
  deriving DecidableEq

structure Exchange where
  phase : Phase
  nextSend : ℤ
  /-- The datagrams sent, the newest first: the query and the server. -/
  sends : List (ℕ × Sockaddr)
  servfail : ℕ → ℕ
  as : ℕ → ℕ → UInt8
  al : ℕ → ℕ

/-- The state when the loop begins, for the answer buffers `as`. -/
def Exchange.start (as : ℕ → ℕ → UInt8) : Exchange :=
  ⟨.head, 0, [], fun _ => 0, as, fun _ => 0⟩

/-- The response code stands for a failure of the server: it is neither success nor "no such
name". -/
def isFailure (m : List UInt8) : Bool := m.getD 3 0 &&& 15 ≠ 0 ∧ m.getD 3 0 &&& 15 ≠ 3

/-- The query that a datagram is taken to answer, by its identifier. -/
def selectQuery (qs : List (List UInt8)) (al : ℕ → ℕ) (buf : List UInt8) : Option ℕ :=
  (List.range qs.length).find? fun i => al i = 0 ∧ buf.getD 0 0 = (qs.getD i []).getD 0 0 ∧
    buf.getD 1 0 = (qs.getD i []).getD 1 0

/-- An answer `buf` to query `i` from the server `ns`, whose question matches. -/
def takeAnswer (c : Resconf) (qs : List (List UInt8)) (s : Exchange) (p : Packet) (ns : Sockaddr)
    (buf : List UInt8) (i : ℕ) : Exchange :=
  let s := if isFailure buf then
      { s with servfail := update s.servfail i (s.servfail i + 1) } else s
  if isFailure buf ∧ s.servfail i < c.ns.length then s
  else if buf.getD 2 0 &&& 0x02 ≠ 0 then
    -- `tcp_query` writes to the answer buffer also when it fails
    match tcpQuery (p.tcp ns) (qs.getD i []) (s.as i) with
    | (a, some r) =>
      let s := { s with as := update s.as i a }
      if questionMatches (window a 0 r) (qs.getD i []) then
        { s with al := update s.al i r }
      else s
    | (a, none) => { s with as := update s.as i a }
  else
    { s with as := update s.as i (fill (s.as i) 0 buf)
             al := update s.al i buf.length }

/-- The body of the inner loop for a datagram. -/
def receive (c : Resconf) (qs : List (List UInt8)) (s : Exchange) (p : Packet) : Exchange :=
  let buf := p.data.take ANSZ_UDP
  match c.ns.find? (sameServer p.sender.normalise) with
  | none => s
  | some ns =>
    if buf.length < 12 ∨ buf.getD 2 0 &&& 0x80 = 0 then s
    else
      match selectQuery qs s.al buf with
      | none => s
      | some i =>
        if questionMatches buf (qs.getD i []) then takeAnswer c qs s p ns buf i else s

/-- The datagrams of one round of sending: each unanswered query to each server, over an IPv4 socket
(`v6 = false`) only to the IPv4 ones. -/
def sendRound (c : Resconf) (v6 : Bool) (nq : ℕ) (al : ℕ → ℕ) : List (ℕ × Sockaddr) :=
  ((List.range nq).filter fun i => al i = 0).flatMap fun i =>
    (c.ns.filter fun ns => v6 || isV4mapped ns).map fun ns => (i, ns)

inductive Action
  /-- The outer loop, at the time `now`; `poll` returns the given value. -/
  | wake (now poll : ℤ)
  /-- `recvfrom` gives a datagram. -/
  | packet (p : Packet)
  /-- `recvfrom` gives nothing more. -/
  | drained

/-- One step of `dns_exchange`. -/
def step (c : Resconf) (v6 : Bool) (qs : List (List UInt8)) (s : Exchange) :
    Action → Option Exchange
  | .wake now poll =>
    match s.phase with
    | .head =>
      if (∀ i ∈ List.range qs.length, s.al i ≠ 0) ∨ now ≥ c.timeout * c.attempts * 1000 then
        some { s with phase := .finished }
      else
        let s := if now ≥ s.nextSend then
            { s with sends := (sendRound c v6 qs.length s.al).reverse ++ s.sends
                     nextSend := now + c.timeout * 1000 } else s
        some (if poll ≤ 0 then s else { s with phase := .draining })
    | .draining | .finished => none
  | .packet p =>
    match s.phase with
    | .draining => some (receive c qs s p)
    | .head | .finished => none
  | .drained =>
    match s.phase with
    | .draining => some { s with phase := .head }
    | .head | .finished => none

end Citadel.Resolv
