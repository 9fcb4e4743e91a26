import Citadel.Lib.Transition
import Citadel.Resolv.Query

/-!
# Runs of the exchange

The history of a run is the list of the actions taken, the newest first.

* `answers_accepted`: what stands as the answer to a query came from a configured server and answers
  the query, and it is never replaced.
* `failure_accepted`: if no server sends a failure twice, and no failure comes over TCP, then a
  failure is taken as the answer only after every server has sent one.
* `failure_repeated`: a server that repeats its failure decides the lookup alone.
-/

namespace Citadel.Resolv

open Citadel.Lib.Window Citadel.Lib.Transition List Function Option

/-! ## What one datagram can do -/

variable {c : Resconf} {v6 : Bool} {qs : List (List UInt8)}

/-- The datagram `p` comes from the server `ns` and is taken as an answer to the open query `i`. -/
structure Selected (c : Resconf) (qs : List (List UInt8)) (s : Exchange) (p : Packet)
    (ns : Sockaddr)
    (i : ℕ) : Prop where
  configured : ns ∈ c.ns
  sender : p.sender.normalise = ns
  open_ : s.al i = 0
  bound : i < qs.length
  long : 12 ≤ (p.data.take ANSZ_UDP).length
  question : questionMatches (p.data.take ANSZ_UDP) (qs.getD i []) = true

/-- The failures counted after the datagram. -/
def countFailure (s : Exchange) (p : Packet) (i : ℕ) : ℕ → ℕ :=
  if isFailure (p.data.take ANSZ_UDP) then update s.servfail i (s.servfail i + 1)
  else s.servfail

/-- The effect of a datagram on the answers. -/
inductive Effect (c : Resconf) (qs : List (List UInt8)) (s : Exchange) (p : Packet) :
    Exchange → Prop
  | ignored : Effect c qs s p s
  | counted {ns : Sockaddr} {i : ℕ} (hsel : Selected c qs s p ns i)
      (hfail : isFailure (p.data.take ANSZ_UDP) = true) :
      Effect c qs s p { s with servfail := countFailure s p i }
  | retried {ns : Sockaddr} {i : ℕ} (hsel : Selected c qs s p ns i) (a : ℕ → UInt8) :
      Effect c qs s p { s with servfail := countFailure s p i, as := update s.as i a }
  | overTcp {ns : Sockaddr} {i : ℕ} (hsel : Selected c qs s p ns i) {a : ℕ → UInt8} {r : ℕ}
      (htcp : tcpQuery (p.tcp ns) (qs.getD i []) (s.as i) = (a, some r))
      (hq : questionMatches (window a 0 r) (qs.getD i []) = true) :
      Effect c qs s p { s with servfail := countFailure s p i, as := update s.as i a,
                               al := update s.al i r }
  | taken {ns : Sockaddr} {i : ℕ} (hsel : Selected c qs s p ns i)
      (hfail : isFailure (p.data.take ANSZ_UDP) = true → c.ns.length ≤ countFailure s p i i) :
      Effect c qs s p
        { s with servfail := countFailure s p i
                 as := update s.as i (fill (s.as i) 0 (p.data.take ANSZ_UDP))
                 al := update s.al i (p.data.take ANSZ_UDP).length }

variable {s s' : Exchange} {p : Packet} {ns : Sockaddr} {i : ℕ} {a : Action} {h h' : List Action}

theorem takeAnswer_effect (hsel : Selected c qs s p ns i) :
    Effect c qs s p (takeAnswer c qs s p ns (p.data.take ANSZ_UDP) i) := by
  -- the state with the failures counted
  have hs : (if isFailure (p.data.take ANSZ_UDP) then
      { s with servfail := update s.servfail i (s.servfail i + 1) } else s) =
      { s with servfail := countFailure s p i } := by
    unfold countFailure
    split_ifs <;> rfl
  unfold takeAnswer
  rw [hs]
  by_cases h1 : isFailure (p.data.take ANSZ_UDP) = true ∧ countFailure s p i i < c.ns.length
  · rw [if_pos h1]
    exact .counted hsel h1.1
  rw [if_neg h1]
  by_cases h2 : (p.data.take ANSZ_UDP).getD 2 0 &&& 0x02 ≠ 0
  · rw [if_pos h2]
    cases htcp : tcpQuery (p.tcp ns) (qs.getD i []) (s.as i) with
    | mk a r =>
      cases r with
      | none => exact .retried hsel a
      | some r =>
        dsimp only
        by_cases h3 : questionMatches (window a 0 r) (qs.getD i []) = true
        · rw [if_pos h3]
          exact .overTcp hsel htcp h3
        · rw [if_neg h3]
          exact .retried hsel a
  · rw [if_neg h2]
    exact .taken hsel fun hf => not_lt.mp fun hlt => h1 ⟨hf, hlt⟩

theorem receive_effect (s : Exchange) (p : Packet) : Effect c qs s p (receive c qs s p) := by
  unfold receive
  cases hns : c.ns.find? (sameServer p.sender.normalise) with
  | none => exact .ignored
  | some ns =>
    dsimp only
    by_cases h1 : (p.data.take ANSZ_UDP).length < 12 ∨
        (p.data.take ANSZ_UDP).getD 2 0 &&& 0x80 = 0
    · rw [if_pos h1]; exact .ignored
    rw [if_neg h1]
    cases hi : selectQuery qs s.al (p.data.take ANSZ_UDP) with
    | none => exact .ignored
    | some i =>
      dsimp only
      by_cases h2 : questionMatches (p.data.take ANSZ_UDP) (qs.getD i []) = true
      · rw [if_pos h2]
        have hsame := List.find?_some hns
        have hopen := List.find?_some hi
        simp only [sameServer, decide_eq_true_eq] at hsame hopen
        refine takeAnswer_effect ⟨mem_of_find?_eq_some hns, ?_, hopen.1,
          mem_range.mp (mem_of_find?_eq_some hi), by omega, h2⟩
        cases hp : p.sender.normalise with
        | mk port addr =>
          rw [hp] at hsame
          cases ns with
          | mk port' addr' => rw [Sockaddr.mk.injEq]; exact hsame
      · rw [if_neg h2]; exact .ignored

theorem step_effect (h : step c v6 qs s a = some s') : (∃ p, a = .packet p ∧ Effect c qs s p s') ∨
      (∀ p, a ≠ .packet p) ∧ s'.servfail = s.servfail ∧ s'.as = s.as ∧ s'.al = s.al := by
  cases a with
  | wake now poll =>
    right
    refine ⟨by simp, ?_⟩
    cases hp : s.phase with
    | head =>
      simp only [step, hp] at h
      split_ifs at h <;> (cases h; exact ⟨rfl, rfl, rfl⟩)
    | draining | finished => simp [step, hp] at h
  | packet p =>
    left
    cases hp : s.phase with
    | draining =>
      simp only [step, hp, some.injEq] at h
      exact ⟨p, rfl, h ▸ receive_effect s p⟩
    | head | finished => simp [step, hp] at h
  | drained =>
    right
    cases hp : s.phase with
    | draining =>
      simp only [step, hp, some.injEq] at h
      subst h
      exact ⟨by simp, rfl, rfl, rfl⟩
    | head | finished => simp [step, hp] at h

/-! ## The accepted answers -/

/-- The message was sent by a configured server: in a datagram of the history, or on the TCP
connection made to a server when a datagram of the history arrived. -/
def FromServer (c : Resconf) (h : List Action) (m : List UInt8) : Prop :=
  ∃ p, .packet p ∈ h ∧ ((p.sender.normalise ∈ c.ns ∧ m = p.data.take ANSZ_UDP) ∨
    ∃ ns ∈ c.ns, m.length = beLength ((p.tcp ns).stream.take 2) ∧
      m <+: (p.tcp ns).stream.drop 2)

/-- The answer to query `i`: the first `al[i]` bytes of `as[i]`. -/
def Exchange.answer (s : Exchange) (i : ℕ) : List UInt8 := window (s.as i) 0 (s.al i)

/-- Every answer that stands was sent by a configured server and matches its query. -/
def Genuine (c : Resconf) (qs : List (List UInt8)) (s : Exchange) (h : List Action) : Prop :=
  ∀ i, s.al i ≠ 0 → FromServer c h (s.answer i) ∧
    questionMatches (s.answer i) (qs.getD i []) = true

theorem FromServer.mono {m : List UInt8} (hh : h ⊆ h')
    (hm : FromServer c h m) : FromServer c h' m := by
  obtain ⟨p, hp, hm⟩ := hm
  exact ⟨p, hh hp, hm⟩

theorem answer_update (s : Exchange) (f : ℕ → ℕ) (i : ℕ) (a : ℕ → UInt8) (r j : ℕ) :
    Exchange.answer { s with servfail := f, as := update s.as i a,
                             al := update s.al i r } j =
      if j = i then window a 0 r else s.answer j := by
  by_cases e : j = i
  · subst e
    simp [Exchange.answer]
  · simp [Exchange.answer, e]

theorem Effect.answer (he : Effect c qs s p s') {j : ℕ} (hj : s'.al j ≠ 0) :
    (s.al j ≠ 0 ∧ s'.answer j = s.answer j) ∨ ∃ ns, Selected c qs s p ns j ∧
      questionMatches (s'.answer j) (qs.getD j []) = true ∧
      ((s'.answer j = p.data.take ANSZ_UDP ∧
        (isFailure (p.data.take ANSZ_UDP) = true → c.ns.length ≤ countFailure s p j j)) ∨
      ∃ r, 12 ≤ r ∧ (s'.answer j).length = beLength ((p.tcp ns).stream.take 2) ∧
        s'.answer j = ((p.tcp ns).stream.drop 2).take r) := by
  cases he with
  | ignored | counted _ _ => exact .inl ⟨hj, rfl⟩
  | @retried ns i hsel b =>
    have e : j ≠ i := fun e => hj (by rw [e]; exact hsel.open_)
    exact .inl ⟨hj, by simp [Exchange.answer, update_of_ne e]⟩
  | @overTcp ns i hsel b r htcp hq =>
    rw [answer_update]
    by_cases e : j = i
    · rw [if_pos e, e]
      have hd := tcpQuery_delivered (p.tcp ns) (qs.getD i []) (s.as i)
      rw [htcp] at hd
      obtain ⟨h12, h1, -, h2⟩ := hd r rfl
      exact .inr ⟨ns, hsel, hq, .inr ⟨r, h12, by simpa using h1, h2⟩⟩
    · rw [if_neg e]
      exact .inl ⟨by simpa [update_of_ne e] using hj, rfl⟩
  | @taken ns i hsel hcount =>
    rw [answer_update]
    by_cases e : j = i
    · have hw := window_fill (M := s.as i) (p := 0) (l := p.data.take ANSZ_UDP)
      rw [Nat.zero_add] at hw
      rw [if_pos e, e, hw]
      exact .inr ⟨ns, hsel, hsel.question, .inl ⟨rfl, hcount⟩⟩
    · rw [if_neg e]
      exact .inl ⟨by simpa [update_of_ne e] using hj, rfl⟩

theorem genuine_step (hg : Genuine c qs s h)
    (hs : step c v6 qs s a = some s') : Genuine c qs s' (a :: h) := by
  have hsub : h ⊆ a :: h := subset_cons_self a h
  intro j hj
  rcases step_effect hs with ⟨p, rfl, he⟩ | ⟨-, -, has, hal⟩
  · rcases he.answer hj with ⟨hj, heq⟩ | ⟨ns, hsel, hq, hm⟩
    · rw [heq]
      exact ⟨(hg j hj).1.mono hsub, (hg j hj).2⟩
    · refine ⟨⟨p, mem_cons_self, ?_⟩, hq⟩
      rcases hm with ⟨hm, -⟩ | ⟨r, -, hlen, hm⟩
      · exact .inl ⟨hsel.sender ▸ hsel.configured, hm⟩
      · exact .inr ⟨ns, hsel.configured, hlen, hm ▸ take_prefix _ _⟩
  · rw [hal] at hj
    rw [Exchange.answer, has, hal]
    exact ⟨(hg j hj).1.mono hsub, (hg j hj).2⟩

theorem answer_kept (hs : step c v6 qs s a = some s')
    (hi : s.al i ≠ 0) : s'.al i = s.al i ∧ s'.as i = s.as i := by
  rcases step_effect hs with ⟨p, rfl, he⟩ | ⟨-, -, has, hal⟩
  · -- the query that a datagram is taken for is another one
    have other : ∀ {ns j}, Selected c qs s p ns j → i ≠ j :=
      fun hsel e => hi (e ▸ hsel.open_)
    cases he with
    | ignored | counted _ _ => exact ⟨rfl, rfl⟩
    | retried hsel b => exact ⟨rfl, update_of_ne (other hsel) _ _⟩
    | overTcp hsel _ _ | taken hsel _ =>
      exact ⟨update_of_ne (other hsel) _ _, update_of_ne (other hsel) _ _⟩
  · rw [has, hal]
    exact ⟨rfl, rfl⟩

theorem trailer_lt {type : ℕ} (h : type ∈ [T_A, T_PTR, T_AAAA]) : ∀ b ∈ trailer type, b < 65 := by
  have hall : (trailer type).all (· < 65) = true := by
    simp only [mem_cons, not_mem_nil, or_false] at h
    rcases h with rfl | rfl | rfl <;> rfl
  exact fun b hb => of_decide_eq_true (all_eq_true.mp hall b hb)

/-- **Acceptance of answers.** At any point of any run, an answer that stands for a query was sent
by a configured server, carries the identifier of the query and the response bit, and repeats its
question; and as the run goes on, it is not changed any more. -/
theorem answers_accepted (c : Resconf) (v6 : Bool) (qs : List (List UInt8)) (as : ℕ → ℕ → UInt8)
    {acts : List Action} {s : Exchange} {h : List Action}
    (hrun : run (recording (step c v6 qs)) (.start as) [] acts = some (s, h)) :
    (∀ i q name type id, qs[i]? = some q → mkquery name type id = some q →
      type ∈ [T_A, T_PTR, T_AAAA] → s.al i ≠ 0 →
      FromServer c h (s.answer i) ∧ Answers name type id (s.answer i)) ∧
    ∀ acts' s' h', run (recording (step c v6 qs)) s h acts' = some (s', h') → ∀ i, s.al i ≠ 0 →
      s'.al i = s.al i ∧ s'.as i = s.as i := by
  constructor
  · have hg : Genuine c qs s h := by
      refine run_induction (C := fun _ => True) (P := Genuine c qs) (fun _ _ _ _ => trivial) ?_ ?_
        hrun trivial
      · intro s h a s' o hg hs _
        obtain ⟨hs, rfl⟩ := recording_eq_some.mp hs
        exact genuine_step hg hs
      · intro i hi
        exact absurd rfl hi
    intro i q name type id hq hmk ht hi
    obtain ⟨h1, h2⟩ := hg i hi
    rw [getD_eq_getElem?_getD, hq, getD_some] at h2
    exact ⟨h1, answers_of_questionMatches hmk (trailer_lt ht) h2⟩
  · intro acts' s' h' hrun' i hi
    exact run_induction (C := fun _ => True) (P := fun t _ => t.al i = s.al i ∧ t.as i = s.as i)
      (fun _ _ _ _ => trivial)
      (by
        rintro t h a t' o ⟨h1, h2⟩ hs -
        obtain ⟨hs, rfl⟩ := recording_eq_some.mp hs
        obtain ⟨h3, h4⟩ := answer_kept hs (i := i) (by rw [h1]; exact hi)
        exact ⟨h3.trans h1, h4.trans h2⟩)
      ⟨rfl, rfl⟩ hrun' trivial

/-- The server with the address `10.0.0.d`, port 53. -/
def serverAt (d : UInt8) : Sockaddr := v4mapped 53 10 0 0 d

/-- The datagram from `10.0.0.d` that repeats the question for the name `a`, type `A` and identifier
`0x1234`, with the name in upper case and the flags `f`, `g`. -/
def replyFrom (d f g : UInt8) : Packet :=
  ⟨.v6 (serverAt d), [0x12, 0x34, f, g, 0, 1, 0, 0, 0, 0, 0, 0, 1, 65, 0, 0, 1, 0, 1],
    fun _ => ⟨false, false, [], []⟩⟩

/-- The query that `replyFrom` repeats. -/
def queryA : List UInt8 := [0x12, 0x34, 1, 0, 0, 1, 0, 0, 0, 0, 0, 0, 1, 97, 0, 0, 1, 0, 1]

/-- A reply from the second of two servers is accepted. -/
theorem answers_accepted_reply : ∃ s h,
    run (recording (step ⟨[serverAt 1, serverAt 2], 5, 2⟩ true [queryA])) (.start fun _ _ => 0) []
      [.wake 0 1, .packet (replyFrom 2 0x81 0x80)] = some (s, h) ∧
    s.al 0 = 19 ∧ FromServer ⟨[serverAt 1, serverAt 2], 5, 2⟩ h (s.answer 0) ∧
      Answers [97] T_A 0x1234 (s.answer 0) :=
  ⟨_, _, rfl, rfl, (@answers_accepted ⟨[serverAt 1, serverAt 2], 5, 2⟩ true [queryA] (fun _ _ => 0)
    [.wake 0 1, .packet (replyFrom 2 0x81 0x80)] _ _ rfl).1 0 queryA [97] T_A 0x1234 rfl (by decide)
      (by decide) (by decide)⟩

/-! ## Failures -/

/-- The server that sent the datagram, if it is a failure of a configured server in answer to the
query `q`. -/
def failureSender (c : Resconf) (q : List UInt8) : Action → Option Sockaddr
  | .packet p =>
    if p.sender.normalise ∈ c.ns ∧ questionMatches (p.data.take ANSZ_UDP) q = true ∧
        isFailure (p.data.take ANSZ_UDP) = true then some p.sender.normalise
    else none
  | .wake _ _ | .drained => none

/-- The servers that sent a failure in answer to the query, as often as they did. -/
def failures (c : Resconf) (q : List UInt8) (h : List Action) : List Sockaddr :=
  h.filterMap (failureSender c q)

/-- The condition on a run: with more than one server no server sends a failure to a query twice,
and no message that a server sends over TCP is a failure. -/
structure FailOnce (c : Resconf) (qs : List (List UInt8)) (h : List Action) : Prop where
  once : c.ns.length ≤ 1 ∨ ∀ i < qs.length, (failures c (qs.getD i []) h).Nodup
  tcp : ∀ p, .packet p ∈ h → ∀ ns ∈ c.ns, isFailure ((p.tcp ns).stream.drop 2) = false

/-- The counters count at most the failures that arrived, and a failure stands as the answer only
when every server has sent one. -/
structure Patient (c : Resconf) (qs : List (List UInt8)) (s : Exchange) (h : List Action) :
    Prop where
  count : ∀ i, s.servfail i ≤ (failures c (qs.getD i []) h).length
  all : ∀ i, s.al i ≠ 0 → isFailure (s.answer i) = true →
    ∀ ns ∈ c.ns, ns ∈ failures c (qs.getD i []) h

theorem FailOnce.of_suffix (hh : h <:+ h') (hf : FailOnce c qs h') : FailOnce c qs h := by
  refine ⟨?_, fun p hp => hf.tcp p (hh.subset hp)⟩
  rcases hf.once with h1 | h1
  · exact .inl h1
  · exact .inr fun i hi => (h1 i hi).sublist (hh.sublist.filterMap _)

theorem failures_suffix {q : List UInt8} (hh : h <:+ h') :
    (failures c q h).length ≤ (failures c q h').length :=
  (hh.sublist.filterMap _).length_le

theorem failures_selected (h : List Action)
    (hsel : Selected c qs s p ns i) (hfail : isFailure (p.data.take ANSZ_UDP) = true) :
    failures c (qs.getD i []) (.packet p :: h) = ns :: failures c (qs.getD i []) h := by
  have : failureSender c (qs.getD i []) (.packet p) = some ns := by
    rw [failureSender, if_pos ⟨hsel.sender ▸ hsel.configured, hsel.question, hfail⟩, hsel.sender]
  rw [failures, filterMap_cons_some this]
  rfl

theorem count_failure (hp : Patient c qs s h) (hsel : Selected c qs s p ns i) (j : ℕ) :
    countFailure s p i j ≤ (failures c (qs.getD j []) (.packet p :: h)).length := by
  have hle : s.servfail j ≤ (failures c (qs.getD j []) (.packet p :: h)).length :=
    (hp.count j).trans (failures_suffix (suffix_cons _ _))
  unfold countFailure
  split_ifs with hfail
  · by_cases e : j = i
    · subst e
      rw [update_self, failures_selected h hsel hfail]
      exact Nat.succ_le_succ (hp.count j)
    · rwa [update_of_ne e]
  · exact hle

/-- As many different senders of failures as there are servers are all the servers. -/
theorem all_failed {q : List UInt8} (hnd : (failures c q h).Nodup)
    (hlen : c.ns.length ≤ (failures c q h).length) : ∀ ns ∈ c.ns, ns ∈ failures c q h := by
  have hsub : failures c q h ⊆ c.ns := by
    intro ns hns
    obtain ⟨a, -, ha⟩ := mem_filterMap.mp hns
    cases a with
    | packet p =>
      simp only [failureSender, ite_none_right_eq_some, some.injEq] at ha
      rw [← ha.2]
      exact ha.1.1
    | wake _ _ | drained => cases ha
  intro ns hns
  exact ((hnd.subperm hsub).perm_of_length_le hlen).mem_iff.mpr hns

theorem eq_of_length_le_one {l : List Sockaddr} (hl : l.length ≤ 1) {a b : Sockaddr} (ha : a ∈ l)
    (hb : b ∈ l) : a = b := by
  match l, hl with
  | [x], _ => rw [mem_singleton.mp ha, mem_singleton.mp hb]

theorem isFailure_take {m : List UInt8} {r : ℕ} (hr : 4 ≤ r) :
    isFailure (m.take r) = isFailure m := by
  have : (m.take r).getD 3 0 = m.getD 3 0 := by
    rw [getD_eq_getElem?_getD, getD_eq_getElem?_getD, List.getElem?_take_of_lt (by omega)]
  rw [isFailure, isFailure, this]

theorem patient_step (hp : Patient c qs s h)
    (hs : step c v6 qs s a = some s') (hf : FailOnce c qs (a :: h)) : Patient c qs s' (a :: h) := by
  have hsuf : h <:+ a :: h := suffix_cons _ _
  have hkeep : ∀ j, s.servfail j ≤ (failures c (qs.getD j []) (a :: h)).length :=
    fun j => (hp.count j).trans (failures_suffix hsuf)
  -- an answer that was there before
  have old : ∀ {j}, s.al j ≠ 0 → isFailure (s.answer j) = true →
      ∀ ns ∈ c.ns, ns ∈ failures c (qs.getD j []) (a :: h) :=
    fun hj hfail ns hns => (hsuf.sublist.filterMap _).subset (hp.all _ hj hfail ns hns)
  rcases step_effect hs with ⟨p, rfl, he⟩ | ⟨-, hsf, has, hal⟩
  · refine ⟨?_, fun j hj hfail => ?_⟩
    · cases he with
      | ignored => exact hkeep
      | counted hsel _ | retried hsel _ | overTcp hsel _ _ | taken hsel _ =>
        exact count_failure hp hsel
    rcases he.answer hj with ⟨hj, heq⟩ | ⟨ns, hsel, -, ⟨heq, hcount⟩ | ⟨r, hr, -, heq⟩⟩
    · exact old hj (heq ▸ hfail)
    · rw [heq] at hfail
      rcases hf.once with h1 | h1
      · -- the only server is the sender
        intro ns' hns'
        rw [failures_selected h hsel hfail]
        rw [eq_of_length_le_one h1 hns' hsel.configured]
        exact mem_cons_self
      · exact all_failed (h1 j hsel.bound) ((hcount hfail).trans (count_failure hp hsel j))
    · -- no failure comes over TCP
      rw [heq, isFailure_take (by omega), hf.tcp p mem_cons_self ns hsel.configured] at hfail
      cases hfail
  · refine ⟨fun j => ?_, fun j hj hfail => ?_⟩
    · rw [hsf]
      exact hkeep j
    · rw [hal] at hj
      exact old hj (by simpa only [Exchange.answer, has, hal] using hfail)

/-- **A failing server does not decide a lookup.** If no server sends a failure twice in answer to
a query (or there is only one server) and no failure comes over TCP, then at any point of the run a
failure stands as the answer to a query only if every configured server has sent one. -/
theorem failure_accepted (c : Resconf) (v6 : Bool) (qs : List (List UInt8)) (as : ℕ → ℕ → UInt8)
    {acts : List Action} {s : Exchange} {h : List Action}
    (hrun : run (recording (step c v6 qs)) (.start as) [] acts = some (s, h))
    (honce : FailOnce c qs h) {i : ℕ} (hi : s.al i ≠ 0) (hfail : isFailure (s.answer i) = true) :
    ∀ ns ∈ c.ns, ns ∈ failures c (qs.getD i []) h := by
  have hp : Patient c qs s h := by
    refine run_induction (C := FailOnce c qs) (P := Patient c qs) (fun _ _ => .of_suffix) ?_ ?_
      hrun honce
    · intro s h a s' o hp hs hf
      obtain ⟨hs, rfl⟩ := recording_eq_some.mp hs
      exact patient_step hp hs hf
    · exact ⟨fun i => Nat.zero_le _, fun i hi => absurd rfl hi⟩
  exact hp.all i hi hfail

/-- Both of two servers send a failure, and the second one is taken. -/
theorem failure_accepted_both : ∃ s h,
    run (recording (step ⟨[serverAt 1, serverAt 2], 5, 2⟩ true [queryA])) (.start fun _ _ => 0) []
      [.wake 0 1, .packet (replyFrom 1 0x81 0x82), .packet (replyFrom 2 0x81 0x82)] = some (s, h) ∧
    s.al 0 = 19 ∧ ∀ ns ∈ [serverAt 1, serverAt 2],
      ns ∈ failures ⟨[serverAt 1, serverAt 2], 5, 2⟩ queryA h := by
  refine ⟨_, _, rfl, rfl, @failure_accepted ⟨[serverAt 1, serverAt 2], 5, 2⟩ true [queryA]
    (fun _ _ => 0) [.wake 0 1, .packet (replyFrom 1 0x81 0x82), .packet (replyFrom 2 0x81 0x82)]
    _ _ rfl ⟨.inr ?_, ?_⟩ 0 (by decide) (by decide)⟩
  · intro i hi
    obtain rfl : i = 0 := by simpa using hi
    decide
  · intro p hp ns _
    simp only [mem_cons, Action.packet.injEq, reduceCtorEq, not_mem_nil, or_false] at hp
    rcases hp with rfl | rfl <;> simp [replyFrom, isFailure]

/-- The first of two servers sends its failure twice, and the second copy is taken although the
other server has not answered. -/
theorem failure_repeated : ∃ s h,
    run (recording (step ⟨[serverAt 1, serverAt 2], 5, 2⟩ true [queryA])) (.start fun _ _ => 0) []
      [.wake 0 1, .packet (replyFrom 1 0x81 0x82), .packet (replyFrom 1 0x81 0x82)] = some (s, h) ∧
    s.al 0 ≠ 0 ∧ isFailure (s.answer 0) = true ∧
      serverAt 2 ∉ failures ⟨[serverAt 1, serverAt 2], 5, 2⟩ queryA h :=
  ⟨_, _, rfl, by decide, by decide, by decide⟩

/-- A conversation in which the server sends its failure to the query `queryA`. -/
def failureOverTcp : Conversation :=
  ⟨true, true, [0, 19] ++ (replyFrom 1 0x81 0x82).data, [⟨1, 1, 21, false⟩, ⟨1, 1, 2, false⟩,
    ⟨1, 1, 19, false⟩]⟩

/-- The code of an answer that comes over TCP is not looked at: one truncated answer of one server
is enough. -/
theorem failure_over_tcp : ∃ s h,
    run (recording (step ⟨[serverAt 1, serverAt 2], 5, 2⟩ true [queryA])) (.start fun _ _ => 0) []
      [.wake 0 1, .packet { replyFrom 1 0x83 0x80 with tcp := fun _ => failureOverTcp }] =
        some (s, h) ∧
    s.al 0 ≠ 0 ∧ isFailure (s.answer 0) = true ∧
      failures ⟨[serverAt 1, serverAt 2], 5, 2⟩ queryA h = [] :=
  ⟨_, _, rfl, by decide, by decide, by decide⟩

end Citadel.Resolv
