import MeikoCs2.BottomHalf
import MeikoCs2.Sleepers

/-! What `can_read` and `can_write` return against the packets they move. Both
move packets one at a time, and the macros that copy from and to user space
return from the middle of the loop with -EFAULT when the packets before have
been sent already, or the packet at hand has left the ring. -/

namespace MeikoCs2

def eagain : Int := 11

namespace Accounting

section Retry

variable {σ : Type} (pass : σ → Int × σ) (nonblock : Bool)

/-- What a pass over the queue makes the call return. Without a value it goes
to sleep. -/
def outcome (got : Int) : Option Int :=
  if got < 0 then some (-efault)
  else if 0 < got then some (got * pktsize)
  else if nonblock then some (-eagain)
  else none

/-- The loop that `can_read` and `can_write` have in common. For every return
from `interruptible_sleep_on` it is given the state found then and whether a
signal is pending. The result is the returned value with the states before and
after each pass. There is none if the call does not return after exactly these
sleeps. -/
def retry : List (σ × Bool) → σ → Option (Int × List (σ × σ))
  | wakes, s =>
    match outcome nonblock (pass s).1, wakes with
    | some retval, [] => some (retval, [(s, (pass s).2)])
    | none, [(_, true)] => some (-eintr, [(s, (pass s).2)])
    | none, (t, false) :: wakes =>
      (retry wakes t).map fun x => (x.1, (s, (pass s).2) :: x.2)
    | _, _ => none

def starts (s : σ) (wakes : List (σ × Bool)) : List σ :=
  s :: (wakes.filter fun x => !x.2).map Prod.fst

variable {pass nonblock}

theorem got_of_outcome_eq_none {got : Int} (h : outcome nonblock got = none) : got = 0 := by
  unfold outcome at h
  split_ifs at h
  omega

/-- Only the last pass moves packets. -/
structure Retried (pass : σ → Int × σ) (nonblock : Bool) (before : List (σ × σ)) (s : σ)
    (retval : Int) : Prop where
  before : ∀ p ∈ before, p.2 = (pass p.1).2 ∧ (pass p.1).1 = 0
  last : outcome nonblock (pass s).1 = some retval ∨ (pass s).1 = 0 ∧ retval = -eintr

theorem retry_spec {wakes : List (σ × Bool)} {s : σ} {x : Int × List (σ × σ)}
    (h : retry pass nonblock wakes s = some x) :
    ∃ before t, x.2 = before ++ [(t, (pass t).2)] ∧ Retried pass nonblock before t x.1 ∧
      starts s wakes = before.map Prod.fst ++ [t] := by
  induction wakes generalizing s x with
  | nil =>
    unfold retry at h
    cases ho : outcome nonblock (pass s).1 with
    | none => simp [ho] at h
    | some v =>
      simp only [ho, Option.some.injEq] at h
      subst h
      exact ⟨[], s, rfl, ⟨by simp, .inl ho⟩, rfl⟩
  | cons w wakes ih =>
    obtain ⟨t, sigpending⟩ := w
    unfold retry at h
    cases ho : outcome nonblock (pass s).1 with
    | some v => simp [ho] at h
    | none =>
      have h0 := got_of_outcome_eq_none ho
      cases sigpending with
      | true =>
        cases wakes with
        | nil =>
          simp only [ho, Option.some.injEq] at h
          subst h
          exact ⟨[], s, rfl, ⟨by simp, .inr ⟨h0, rfl⟩⟩, rfl⟩
        | cons w' wakes => simp [ho] at h
      | false =>
        simp only [ho] at h
        obtain ⟨y, hy, rfl⟩ := Option.map_eq_some_iff.mp h
        obtain ⟨before, u, hp, hr, hs⟩ := ih hy
        refine ⟨(s, (pass s).2) :: before, u, by rw [hp]; rfl, ⟨?_, hr.last⟩, ?_⟩
        · exact List.forall_mem_cons.mpr ⟨⟨rfl, h0⟩, hr.before⟩
        · exact congrArg (s :: ·) hs

theorem Retried.got_of_retval {before : List (σ × σ)} {s : σ} {retval : Int} {n : Nat}
    (h : Retried pass nonblock before s retval) (hr : retval = n * pktsize) :
    (pass s).1 = n := by
  have h₁ : efault = 14 := rfl
  have h₂ : eagain = 11 := rfl
  have h₃ : eintr = 4 := rfl
  rcases h.last with ho | ⟨-, he⟩
  · unfold outcome at ho
    simp only [pktsize] at ho hr
    split_ifs at ho <;> have hv := Option.some.inj ho <;> omega
  · simp only [pktsize] at hr
    omega

/-- A call returns an error after a fault, and otherwise after a pass without
a packet. -/
theorem Retried.neg_iff {before : List (σ × σ)} {s : σ} {retval : Int}
    (h : Retried pass nonblock before s retval) :
    retval < 0 ↔ (pass s).1 < 0 ∨ (pass s).1 = 0 := by
  have h₁ : efault = 14 := rfl
  have h₂ : eagain = 11 := rfl
  have h₃ : eintr = 4 := rfl
  rcases h.last with ho | ⟨h0, he⟩
  · unfold outcome at ho
    simp only [pktsize] at ho
    split_ifs at ho <;> have hv := Option.some.inj ho <;> omega
  · omega

variable {torn : σ → Prop} {wakes : List (σ × Bool)} {s : σ} {x : Int × List (σ × σ)}
  (kept : σ → σ → Prop) (hkept : ∀ t, (pass t).1 = 0 → kept t (pass t).2)
include hkept

/-- A call that fails has kept everything, unless a pass faulted after it had
moved something. -/
theorem retry_failure_iff (htorn : ∀ t, torn t ↔ (pass t).1 < 0 ∧ ¬ kept t (pass t).2)
    (h : retry pass nonblock wakes s = some x) :
    (x.1 < 0 → ∀ p ∈ x.2, kept p.1 p.2) ↔ ∀ t ∈ starts s wakes, ¬ torn t := by
  obtain ⟨before, t, hx, hr, hs⟩ := retry_spec h
  have hbefore : ∀ p ∈ before, kept p.1 p.2 := by
    intro p hp
    rw [(hr.before p hp).1]
    exact hkept _ (hr.before p hp).2
  rw [hx, hs, hr.neg_iff]
  simp only [htorn, List.forall_mem_append, List.forall_mem_singleton, List.forall_mem_map]
  constructor
  · intro hf
    exact ⟨fun p hp hm => absurd (hr.before p hp).2 (by omega), fun hm => hm.2 (hf (.inl hm.1)).2⟩
  · rintro ⟨-, ht⟩ hgot
    refine ⟨hbefore, ?_⟩
    rcases hgot with hgot | hgot
    · exact not_not.mp fun hm => ht ⟨hgot, hm⟩
    · exact hkept t hgot

theorem retry_success (h : retry pass nonblock wakes s = some x) {n : Nat}
    (hn : x.1 = n * pktsize) :
    ∃ before t, x.2 = before ++ [(t, (pass t).2)] ∧ (∀ p ∈ before, kept p.1 p.2) ∧
      (pass t).1 = n := by
  obtain ⟨before, t, hx, hr, -⟩ := retry_spec h
  refine ⟨before, t, hx, fun p hp => ?_, hr.got_of_retval hn⟩
  rw [(hr.before p hp).1]
  exact hkept _ (hr.before p hp).2

end Retry

/-! `can_write`. Element `j` of the user buffer is the packet at its byte
`16 * j`, or `none` if that cannot be read. -/

section Write

variable (buf : Nat → Option CanPacket)

/-- The loop of `user_to_outq`, with the rounds left and those done. -/
def userToOutqFrom : Nat → Nat → Node → Int × Node
  | 0, i, s => (i, s)
  | k + 1, i, s =>
    match buf i with
    | none => (-efault, s)
    | some pkt =>
      let r := sendPkt pkt s
      if r.2 then userToOutqFrom k (i + 1) r.1 else (i, r.1)

def userToOutq (count : Nat) (s : Node) : Int × Node := userToOutqFrom buf count 0 s

def canWrite (nonblock : Bool) (count : Nat) (wakes : List (Node × Bool)) (s : Node) :
    Option (Int × List (Node × Node)) :=
  if count % pktsize ≠ 0 then
    if wakes.isEmpty then some (-eio, []) else none
  else retry (userToOutq buf (count / pktsize)) nonblock wakes s

/-- The packets accepted by `send_pkt` from `s` to `u`. -/
def acceptedIn (s u : Node) : List CanPacket :=
  ((u.handed.drop s.handed.length).filter fun h => h.instat || h.outstat).map Handed.pkt

/-- How many of the first `j` packets of the buffer are for another node. -/
def foreign (s : Node) (j : Nat) : Nat :=
  (List.range j).countP fun i => (buf i).any fun pkt => !isMypacket s.canNodeid pkt

/-- In a pass that starts in `s` and has come to packet `j`, it can be read and
there is room for it. The first packet for another node makes the chip take one
out of `outq`, if it can take one. -/
def takes (s : Node) (j : Nat) : Bool :=
  (buf j).any fun pkt =>
    if isMypacket s.canNodeid pkt then s.inq.size + j < 1023
    else s.outq.size + foreign buf s j < 1023 + if s.xmitAvail && 0 < foreign buf s j then 1 else 0

/-- A pass that starts in `s` comes to a packet that cannot be read after it
has sent some. -/
def TornWrite (n : Nat) (s : Node) : Prop :=
  ∃ k, 0 < k ∧ k < n ∧ buf k = none ∧ ∀ j < k, takes buf s j = true

/-- The first `i` packets have been sent. -/
structure SentFirst (s : Node) (i : Nat) (u : Node) : Prop where
  canNodeid : u.canNodeid = s.canNodeid
  jiffies : u.jiffies = s.jiffies
  inq : u.inq.size = min 1023 (s.inq.size + i)
  xmitAvail : u.xmitAvail = (s.xmitAvail && decide (foreign buf s i = 0))
  outq : u.outq.size + (if s.xmitAvail && 0 < foreign buf s i then 1 else 0) =
    s.outq.size + foreign buf s i
  handed : s.handed <+: u.handed
  accepted : (acceptedIn s u).map some = (List.range i).map fun j => (buf j).map (fixup s)

variable {buf} {s u : Node} {i : Nat}

theorem SentFirst.zero (s : Node) : SentFirst buf s 0 s where
  canNodeid := rfl
  jiffies := rfl
  inq := by
    have hlt : s.inq.size < 1024 := s.inq.size_lt
    omega
  xmitAvail := by simp [foreign]
  outq := by simp [foreign]
  handed := List.prefix_rfl
  accepted := by simp [acceptedIn]

theorem foreign_succ (pkt : CanPacket) (hb : buf i = some pkt) :
    foreign buf s (i + 1) = foreign buf s i + if isMypacket s.canNodeid pkt then 0 else 1 := by
  rw [foreign, List.range_succ, List.countP_append, foreign]
  cases hm : isMypacket s.canNodeid pkt <;> simp [hb, hm]

theorem acceptedIn_concat {h : Handed} (hp : s.handed <+: u.handed) :
    acceptedIn s (record h u) =
      acceptedIn s u ++ if h.instat || h.outstat then [h.pkt] else [] := by
  rw [acceptedIn, record, List.drop_append_of_le_length hp.length_le, List.filter_append,
    List.map_append, acceptedIn]
  cases hs : (h.instat || h.outstat) <;> simp [hs]

theorem size_of_full_eq_false {r : PktRing} (h : r.full = false) : r.size < 1023 := by
  have hlt : r.size < 1024 := r.size_lt
  have hne : ¬ r.size + 1 = 1024 := by
    rw [← Ring.full_iff r (by decide), h]
    decide
  omega

theorem size_pktToRing (pkt : CanPacket) (r : PktRing) :
    (pktToRing pkt r).1.size = min 1023 (r.size + 1) := by
  cases hf : r.full with
  | true =>
    have he : r.size + 1 = 1024 := (Ring.full_iff r (by decide)).mp hf
    rw [pktToRing, Ring.put_of_full hf]
    change r.size = _
    omega
  | false =>
    have hlt := size_of_full_eq_false hf
    rw [pktToRing, Ring.size_put (by decide) hf]
    omega

theorem tryXmit_size (s : Node) :
    (tryXmit s).outq.size + (if s.xmitAvail && 0 < s.outq.size then 1 else 0) = s.outq.size ∧
      (tryXmit s).xmitAvail = (s.xmitAvail && decide (s.outq.size = 0)) := by
  rw [tryXmit_eq]
  cases hx : s.xmitAvail with
  | false => simp [hx]
  | true =>
    cases hg : ringToPkt s.outq with
    | none =>
      have h0 : s.outq.size = 0 := by
        rw [← Ring.length_toList, (Ring.get_eq_none_iff _).mp hg, List.length_nil]
      simp [hx, h0]
    | some x =>
      have hl := congrArg List.length (Ring.toList_of_get (by decide) hg)
      rw [List.length_cons, Ring.length_toList, Ring.length_toList] at hl
      simp [hl]

theorem sendPkt_eq (pkt : CanPacket) (s : Node) :
    (sendPkt pkt s).1 =
      let e := enqueue (fixup s pkt) s
      let t := if e.2.1 then queueBh e.1 else e.1
      record ⟨fixup s pkt, e.2.1, e.2.2⟩ (if e.2.2 then tryXmit t else t) := rfl

structure Accepted (s : Node) (pkt : CanPacket) (u : Node) : Prop where
  emits : Emits s u
  handed : ∃ x y, u.handed = s.handed ++ [⟨fixup s pkt, x, y⟩] ∧ (x || y) = true
  inq : u.inq.size = min 1023 (s.inq.size + 1)
  mine : isMypacket s.canNodeid pkt = true → u.outq = s.outq ∧ u.xmitAvail = s.xmitAvail
  foreign : isMypacket s.canNodeid pkt = false →
    u.outq.size + (if s.xmitAvail then 1 else 0) = s.outq.size + 1 ∧ u.xmitAvail = false

theorem sendPkt_accepted {pkt : CanPacket} (h : (sendPkt pkt s).2 = true) :
    Accepted s pkt (sendPkt pkt s).1 := by
  have hh : ∃ x y, (sendPkt pkt s).1.handed = s.handed ++ [⟨fixup s pkt, x, y⟩] ∧
      (x || y) = true := by
    obtain ⟨x, y, hh, hr⟩ := sendPktNoOutFixup_handed (outgoingFixup s.canNodeid pkt) s
    exact ⟨x, y, hh, hr.symm.trans h⟩
  suffices hq : (sendPkt pkt s).1.inq.size = min 1023 (s.inq.size + 1) ∧
      (isMypacket s.canNodeid pkt = true →
        (sendPkt pkt s).1.outq = s.outq ∧ (sendPkt pkt s).1.xmitAvail = s.xmitAvail) ∧
      (isMypacket s.canNodeid pkt = false →
        (sendPkt pkt s).1.outq.size + (if s.xmitAvail then 1 else 0) = s.outq.size + 1 ∧
          (sendPkt pkt s).1.xmitAvail = false) from
    ⟨sendPkt_emits pkt s, hh, hq.1, hq.2.1, hq.2.2⟩
  rw [sendPkt_snd] at h
  have hm : isMypacket s.canNodeid (fixup s pkt) = isMypacket s.canNodeid pkt := rfl
  rw [sendPkt_eq]
  cases hi : isMypacket s.canNodeid pkt with
  | true =>
    have hf : s.inq.full = false := by simpa [hi] using h
    have hp : (putInq (fixup s pkt) s).2 = true := by
      rw [putInq, pktToRing, Ring.put_snd, hf]
      rfl
    have he : enqueue (fixup s pkt) s = ((putInq (fixup s pkt) s).1, true, false) := by
      rw [enqueue, if_pos (hm.trans hi), hp]
    rw [he]
    exact ⟨size_pktToRing _ _, fun _ => ⟨rfl, rfl⟩, fun hc => absurd hc (by decide)⟩
  | false =>
    have hf : s.outq.full = false := by simpa [hi] using h
    have hp : (putOutq (fixup s pkt) s).2 = true := by
      rw [putOutq, pktToRing, Ring.put_snd, hf]
      rfl
    have he : enqueue (fixup s pkt) s =
        ((putInq (fixup s pkt) (putOutq (fixup s pkt) s).1).1,
          (putInq (fixup s pkt) (putOutq (fixup s pkt) s).1).2, true) := by
      rw [enqueue, if_neg (by rw [hm, hi]; decide), if_pos hp]
    rw [he]
    simp only [if_true]
    generalize ht : (if (putInq (fixup s pkt) (putOutq (fixup s pkt) s).1).2 = true then
      queueBh (putInq (fixup s pkt) (putOutq (fixup s pkt) s).1).1
      else (putInq (fixup s pkt) (putOutq (fixup s pkt) s).1).1) = t
    have htq : t.inq = (pktToRing (fixup s pkt) s.inq).1 ∧
        t.outq = (pktToRing (fixup s pkt) s.outq).1 ∧ t.xmitAvail = s.xmitAvail := by
      rw [← ht]
      split_ifs <;> exact ⟨rfl, rfl, rfl⟩
    obtain ⟨hsize, havail⟩ := tryXmit_size t
    have hout : t.outq.size = s.outq.size + 1 := by
      rw [htq.2.1, pktToRing, Ring.size_put (by decide) hf]
    rw [hout, htq.2.2] at hsize havail
    refine ⟨?_, fun hc => absurd hc (by decide), fun _ => ⟨?_, ?_⟩⟩
    · rw [record_inq, tryXmit_inq, htq.1, size_pktToRing]
    · simpa [record] using hsize
    · simpa [record] using havail

theorem SentFirst.takes_eq {pkt : CanPacket} (h : SentFirst buf s i u) (hb : buf i = some pkt) :
    (sendPkt pkt u).2 = takes buf s i := by
  have hfull : ∀ r : PktRing, (!r.full) = decide (r.size < 1023) := by
    intro r
    cases hf : r.full with
    | true =>
      have he : r.size + 1 = 1024 := (Ring.full_iff r (by decide)).mp hf
      have hge : ¬ r.size < 1023 := by omega
      simp [hge]
    | false => simp [size_of_full_eq_false hf]
  have hin := h.inq
  have hout := h.outq
  rw [sendPkt_snd, h.canNodeid, takes, hb, Option.any_some, hfull, hfull]
  cases isMypacket s.canNodeid pkt with
  | true =>
    rw [if_pos rfl, if_pos rfl, decide_eq_decide]
    omega
  | false =>
    rw [if_neg (by decide), if_neg (by decide), decide_eq_decide]
    omega

theorem SentFirst.succ {pkt : CanPacket} (h : SentFirst buf s i u) (hb : buf i = some pkt)
    (hs : (sendPkt pkt u).2 = true) : SentFirst buf s (i + 1) (sendPkt pkt u).1 := by
  have ha := sendPkt_accepted hs
  have hid := h.canNodeid
  obtain ⟨x, y, hh, hxy⟩ := ha.handed
  have hf := foreign_succ (s := s) pkt hb
  have hin := h.inq
  have hout := h.outq
  have hav := h.xmitAvail
  refine ⟨ha.emits.canNodeid.trans hid, ha.emits.jiffies.trans h.jiffies, ?_, ?_, ?_,
    h.handed.trans ha.emits.handed, ?_⟩
  · rw [ha.inq]
    omega
  · cases hm : isMypacket s.canNodeid pkt with
    | true =>
      rw [(ha.mine (by rw [hid, hm])).2, hav, hf, hm]
      rfl
    | false =>
      rw [(ha.foreign (by rw [hid, hm])).2, hf, hm]
      simp
  · cases hm : isMypacket s.canNodeid pkt with
    | true =>
      rw [(ha.mine (by rw [hid, hm])).1, hf, hm]
      exact hout
    | false =>
      have hfo := (ha.foreign (by rw [hid, hm])).1
      have hf₁ : foreign buf s (i + 1) = foreign buf s i + 1 := by
        rw [hf, hm]
        rfl
      rw [hf₁]
      rw [hav] at hfo
      cases hx : s.xmitAvail with
      | false =>
        simp only [hx, Bool.false_and, Bool.false_eq_true, if_false] at hfo hout ⊢
        omega
      | true =>
        simp only [hx, Bool.true_and, decide_eq_true_eq] at hfo hout ⊢
        split_ifs at hfo hout ⊢ <;> omega
  · have hr : (sendPkt pkt u).1.handed = (record ⟨fixup u pkt, x, y⟩ u).handed := hh
    rw [acceptedIn, hr, ← acceptedIn, acceptedIn_concat h.handed, if_pos hxy, List.map_append,
      h.accepted, List.range_succ, List.map_append, fixup_congr h.canNodeid h.jiffies]
    simp only [List.map_cons, List.map_nil, hb, Option.map_some]

/-- How a pass over the buffer ends, with `k` packets sent. -/
structure WriteEnds (buf : Nat → Option CanPacket) (n : Nat) (s : Node) (k : Nat)
    (r : Int × Node) : Prop where
  taken : ∀ j < k, takes buf s j = true
  accepted : (acceptedIn s r.2).map some = (List.range k).map fun j => (buf j).map (fixup s)
  ending : k = n ∧ r.1 = k ∨
    k < n ∧ takes buf s k = false ∧ r.1 = if (buf k).isSome then (k : Int) else -efault

theorem userToOutqFrom_ends (m : Nat) (h : SentFirst buf s i u)
    (ht : ∀ j < i, takes buf s j = true) :
    ∃ k, WriteEnds buf (i + m) s k (userToOutqFrom buf m i u) := by
  induction m generalizing i u with
  | zero => exact ⟨i, ht, h.accepted, .inl ⟨rfl, rfl⟩⟩
  | succ m ih =>
    unfold userToOutqFrom
    cases hb : buf i with
    | none =>
      have hf : takes buf s i = false := by rw [takes, hb, Option.any_none]
      refine ⟨i, ht, h.accepted, .inr ⟨by omega, hf, ?_⟩⟩
      rw [hb]
      rfl
    | some pkt =>
      have htk := h.takes_eq hb
      cases hs : (sendPkt pkt u).2 with
      | true =>
        simp only [hs, if_true]
        rw [hs] at htk
        obtain ⟨k, hk⟩ := ih (h.succ hb hs) fun j hj => by
          rcases Nat.lt_succ_iff_lt_or_eq.mp hj with hj | rfl
          · exact ht j hj
          · exact htk.symm
        rw [Nat.succ_add_eq_add_succ i m] at hk
        exact ⟨k, hk⟩
      | false =>
        simp only [hs, Bool.false_eq_true, if_false]
        rw [hs] at htk
        refine ⟨i, ht, ?_, .inr ⟨by omega, htk.symm, ?_⟩⟩
        · obtain ⟨x, y, hh, hr⟩ := sendPktNoOutFixup_handed (outgoingFixup u.canNodeid pkt) u
          have hxy : (x || y) = false := hr.symm.trans hs
          have hrec : (sendPkt pkt u).1.handed = (record ⟨fixup u pkt, x, y⟩ u).handed := hh
          rw [acceptedIn, hrec, ← acceptedIn, acceptedIn_concat h.handed, hxy]
          simpa using h.accepted
        · rw [hb]
          rfl

theorem userToOutq_ends (buf : Nat → Option CanPacket) (n : Nat) (s : Node) :
    ∃ k, WriteEnds buf n s k (userToOutq buf n s) := by
  have h : ∃ k, WriteEnds buf (0 + n) s k (userToOutq buf n s) :=
    userToOutqFrom_ends n (.zero s) (by simp)
  rwa [Nat.zero_add] at h

variable {n k : Nat} {r : Int × Node}

theorem WriteEnds.of_nonneg (h : WriteEnds buf n s k r) (h0 : 0 ≤ r.1) : r.1 = k := by
  have he : efault = 14 := rfl
  rcases h.ending with ⟨-, hk⟩ | ⟨-, -, hk⟩
  · exact hk
  · split_ifs at hk <;> omega

theorem WriteEnds.accepted_nil_iff (h : WriteEnds buf n s k r) :
    acceptedIn s r.2 = [] ↔ k = 0 := by
  rw [← List.map_eq_nil_iff (f := some), h.accepted, List.map_eq_nil_iff, List.range_eq_nil]

theorem WriteEnds.torn_iff (h : WriteEnds buf n s k r) :
    TornWrite buf n s ↔ r.1 < 0 ∧ k ≠ 0 := by
  have he : efault = 14 := rfl
  constructor
  · rintro ⟨l, h0, hln, hb, hl⟩
    have hf : takes buf s l = false := by rw [takes, hb, Option.any_none]
    rcases h.ending with ⟨rfl, -⟩ | ⟨-, hk, hr⟩
    · rw [h.taken l hln] at hf
      cases hf
    · rcases Nat.lt_trichotomy k l with hlt | rfl | hlt
      · rw [hl k hlt] at hk
        cases hk
      · rw [hb, if_neg (by decide)] at hr
        exact ⟨by omega, by omega⟩
      · rw [h.taken l hlt] at hf
        cases hf
  · rintro ⟨hneg, h0⟩
    rcases h.ending with ⟨-, hk⟩ | ⟨hn, -, hk⟩
    · omega
    · split_ifs at hk with hb
      · omega
      · exact ⟨k, by omega, hn, by simpa using hb, h.taken⟩

/-- The returned value tells what was sent. -/
structure WriteAccounted (buf : Nat → Option CanPacket) (x : Int × List (Node × Node)) : Prop where
  success : ∀ n : Nat, 0 < n → x.1 = n * pktsize →
    ∃ before s u, x.2 = before ++ [(s, u)] ∧ (∀ p ∈ before, acceptedIn p.1 p.2 = []) ∧
      (acceptedIn s u).map some = (List.range n).map fun j => (buf j).map (fixup s)
  failure : x.1 < 0 → ∀ p ∈ x.2, acceptedIn p.1 p.2 = []

theorem writeAccounted_iff {nonblock : Bool} {count : Nat} {wakes : List (Node × Bool)}
    {x : Int × List (Node × Node)} (h : canWrite buf nonblock count wakes s = some x) :
    WriteAccounted buf x ↔
      (count % pktsize = 0 → ∀ t ∈ starts s wakes, ¬ TornWrite buf (count / pktsize) t) := by
  unfold canWrite at h
  split_ifs at h with hc hw
  · obtain rfl := Option.some.inj h
    refine iff_of_true ⟨fun n h0 hn => ?_, fun _ p hp => nomatch hp⟩ fun h0 => absurd h0 hc
    have he : eio = 5 := rfl
    simp only [pktsize] at hn
    omega
  · rw [Decidable.not_not] at hc
    have hends := userToOutq_ends buf (count / pktsize)
    have hkept : ∀ t, (userToOutq buf (count / pktsize) t).1 = 0 →
        acceptedIn t (userToOutq buf (count / pktsize) t).2 = [] := by
      intro t ht
      obtain ⟨k, hk⟩ := hends t
      have hk₀ := hk.of_nonneg (by omega)
      rw [hk.accepted_nil_iff]
      omega
    have htorn : ∀ t, TornWrite buf (count / pktsize) t ↔
        (userToOutq buf (count / pktsize) t).1 < 0 ∧
          ¬ acceptedIn t (userToOutq buf (count / pktsize) t).2 = [] := by
      intro t
      obtain ⟨k, hk⟩ := hends t
      rw [hk.torn_iff, hk.accepted_nil_iff]
    have hfail := retry_failure_iff (fun s u => acceptedIn s u = []) hkept htorn h
    simp only [hc, forall_const]
    rw [← hfail]
    refine ⟨fun ha => ha.failure, fun hf => ⟨fun n _ hn => ?_, hf⟩⟩
    obtain ⟨before, t, hx, hb, hgot⟩ :=
      retry_success (fun s u => acceptedIn s u = []) hkept h hn
    obtain ⟨k, hk⟩ := hends t
    have hret := hk.of_nonneg (by omega)
    have hkn : k = n := by omega
    exact ⟨before, t, _, hx, hb, by rw [hk.accepted, hkn]⟩

end Write

/-! `can_read`. Slot `j` of the user buffer is the packet at its byte `16 * j`. -/

structure UserRing where
  mem : Nat → CanPacket
  ring : PktRing

section Read

variable (writable : Nat → Bool)

/-- The loop of `ring_to_user`, with the rounds left and those done. -/
def ringToUserFrom : Nat → Nat → UserRing → Int × UserRing
  | 0, i, x => (i, x)
  | k + 1, i, x =>
    match ringToPkt x.ring with
    | none => (i, x)
    | some (pkt, r) =>
      if writable i then ringToUserFrom k (i + 1) ⟨Function.update x.mem i pkt, r⟩
      else (-efault, { x with ring := r })

def ringToUser (count : Nat) (x : UserRing) : Int × UserRing := ringToUserFrom writable count 0 x

def canRead (nonblock : Bool) (count : Nat) (wakes : List (UserRing × Bool)) (x : UserRing) :
    Option (Int × List (UserRing × UserRing)) :=
  if count < pktsize then
    if wakes.isEmpty then some (-eio, []) else none
  else retry (ringToUser writable (count / pktsize)) nonblock wakes x

/-- A pass comes to a slot that cannot be written, with a packet for it. -/
def TornRead (n : Nat) (x : UserRing) : Prop :=
  ∃ k, k < n ∧ k < x.ring.size ∧ writable k = false

/-- How a pass ends, with the packets it took out of the ring. -/
structure ReadEnds (n : Nat) (x : UserRing) (got : List CanPacket) (r : Int × UserRing) : Prop where
  ring : x.ring.toList = got ++ r.2.ring.toList
  ending :
    (r.1 = got.length ∧ got.length = min n x.ring.size ∧ (∀ j < got.length, writable j = true) ∧
      r.2.mem = fun j => got[j]?.getD (x.mem j)) ∨
    (r.1 = -efault ∧ ∃ k, got.length = k + 1 ∧ k < n ∧ writable k = false)

variable {writable} {x y : UserRing} {i n : Nat}

theorem update_getD {α : Type} (done : List α) (a : α) (mem : Nat → α) :
    Function.update (fun j => done[j]?.getD (mem j)) done.length a =
      fun j => (done ++ [a])[j]?.getD (mem j) := by
  funext j
  rcases Nat.lt_trichotomy j done.length with hj | rfl | hj
  · rw [Function.update_of_ne (by omega), List.getElem?_append_left hj]
  · rw [Function.update_self, List.getElem?_concat_length, Option.getD_some]
  · rw [Function.update_of_ne (by omega), List.getElem?_eq_none (by omega),
      List.getElem?_eq_none (by rw [List.length_append, List.length_singleton]; omega)]

theorem ringToUserFrom_ends (m : Nat) {done : List CanPacket} (hi : done.length = i)
    (hr : x.ring.toList = done ++ y.ring.toList) (hw : ∀ j < i, writable j = true)
    (hm : y.mem = fun j => done[j]?.getD (x.mem j)) :
    ∃ got, ReadEnds writable (i + m) x got (ringToUserFrom writable m i y) := by
  have hsize := congrArg List.length hr
  rw [List.length_append, Ring.length_toList, Ring.length_toList, hi] at hsize
  induction m generalizing i y done with
  | zero => exact ⟨done, hr, .inl ⟨by rw [hi]; rfl, by omega, by rwa [hi], hm⟩⟩
  | succ m ih =>
    unfold ringToUserFrom
    cases hg : ringToPkt y.ring with
    | none =>
      have h0 : y.ring.size = 0 := by
        rw [← Ring.length_toList, (Ring.get_eq_none_iff _).mp hg, List.length_nil]
      exact ⟨done, hr, .inl ⟨by rw [hi], by omega, by rwa [hi], hm⟩⟩
    | some z =>
      obtain ⟨pkt, q⟩ := z
      have hq := Ring.toList_of_get (by decide) hg
      have hr' : x.ring.toList = (done ++ [pkt]) ++ q.toList := by
        rw [hr, hq, List.append_assoc]
        rfl
      cases hwi : writable i with
      | true =>
        simp only [if_true]
        have hi' : (done ++ [pkt]).length = i + 1 := by
          rw [List.length_append, hi]
          rfl
        have hstep := ih (y := ⟨Function.update y.mem i pkt, q⟩) hi' hr' ?_ ?_ ?_
        · rwa [Nat.succ_add_eq_add_succ i m] at hstep
        · intro j hj
          rcases Nat.lt_succ_iff_lt_or_eq.mp hj with hj | rfl
          · exact hw j hj
          · exact hwi
        · rw [hm, ← hi]
          exact update_getD done pkt x.mem
        · have hl := congrArg List.length hr'
          rw [List.length_append, List.length_append, Ring.length_toList, Ring.length_toList, hi] at hl
          exact hl
      | false =>
        simp only [Bool.false_eq_true, if_false]
        exact ⟨done ++ [pkt], hr', .inr ⟨rfl, i, by rw [List.length_append, hi]; rfl, by omega, hwi⟩⟩

theorem ringToUser_ends (writable : Nat → Bool) (n : Nat) (x : UserRing) :
    ∃ got, ReadEnds writable n x got (ringToUser writable n x) := by
  have h0 : ([] : List CanPacket).length = 0 := rfl
  have hw : ∀ j < 0, writable j = true := by simp
  have h := ringToUserFrom_ends n h0 (List.nil_append x.ring.toList).symm hw rfl
  rwa [Nat.zero_add] at h

variable {got : List CanPacket} {r : Int × UserRing}

theorem ReadEnds.of_nonneg (h : ReadEnds writable n x got r) (h0 : 0 ≤ r.1) :
    r.1 = got.length ∧ r.2.mem = fun j => got[j]?.getD (x.mem j) := by
  have he : efault = 14 := rfl
  rcases h.ending with ⟨hg, -, -, hm⟩ | ⟨hg, -⟩
  · exact ⟨hg, hm⟩
  · omega

theorem ReadEnds.ring_eq_iff (h : ReadEnds writable n x got r) :
    r.2.ring.toList = x.ring.toList ↔ got = [] := by
  rw [h.ring]
  exact List.self_eq_append_left

theorem ReadEnds.torn_iff (h : ReadEnds writable n x got r) :
    TornRead writable n x ↔ r.1 < 0 ∧ got ≠ [] := by
  have he : efault = 14 := rfl
  have hsize := congrArg List.length h.ring
  rw [List.length_append, Ring.length_toList] at hsize
  rcases h.ending with ⟨hg, hl, hw, -⟩ | ⟨hg, k, hl, hk, hw⟩
  · refine iff_of_false ?_ (by omega)
    rintro ⟨j, hn, hs, hj⟩
    rw [hw j (by omega)] at hj
    cases hj
  · refine iff_of_true ⟨k, hk, by omega, hw⟩ ⟨by omega, fun h0 => ?_⟩
    rw [h0] at hl
    cases hl

/-- The returned value tells what was taken out of the ring and copied. -/
structure ReadAccounted (x : Int × List (UserRing × UserRing)) : Prop where
  success : ∀ n : Nat, 0 < n → x.1 = n * pktsize →
    ∃ before s u got, x.2 = before ++ [(s, u)] ∧
      (∀ p ∈ before, p.2.ring.toList = p.1.ring.toList) ∧
      got.length = n ∧ s.ring.toList = got ++ u.ring.toList ∧
      u.mem = fun j => got[j]?.getD (s.mem j)
  failure : x.1 < 0 → ∀ p ∈ x.2, p.2.ring.toList = p.1.ring.toList

theorem readAccounted_iff {nonblock : Bool} {count : Nat} {wakes : List (UserRing × Bool)}
    {z : Int × List (UserRing × UserRing)} (h : canRead writable nonblock count wakes x = some z) :
    ReadAccounted z ↔
      (pktsize ≤ count → ∀ t ∈ starts x wakes, ¬ TornRead writable (count / pktsize) t) := by
  unfold canRead at h
  split_ifs at h with hc hw
  · obtain rfl := Option.some.inj h
    refine iff_of_true ⟨fun n h0 hn => ?_, fun _ p hp => nomatch hp⟩ fun h0 => by omega
    have he : eio = 5 := rfl
    simp only [pktsize] at hn
    omega
  · have hends := ringToUser_ends writable (count / pktsize)
    have hkept : ∀ t, (ringToUser writable (count / pktsize) t).1 = 0 →
        (ringToUser writable (count / pktsize) t).2.ring.toList = t.ring.toList := by
      intro t ht
      obtain ⟨got, hg⟩ := hends t
      have hl := (hg.of_nonneg (by omega)).1
      rw [hg.ring_eq_iff, ← List.length_eq_zero_iff]
      omega
    have htorn : ∀ t, TornRead writable (count / pktsize) t ↔
        (ringToUser writable (count / pktsize) t).1 < 0 ∧
          ¬ (ringToUser writable (count / pktsize) t).2.ring.toList = t.ring.toList := by
      intro t
      obtain ⟨got, hg⟩ := hends t
      rw [hg.torn_iff, hg.ring_eq_iff]
    have hfail := retry_failure_iff (fun s u => u.ring.toList = s.ring.toList) hkept htorn h
    simp only [Nat.not_lt.mp hc, forall_const]
    rw [← hfail]
    refine ⟨fun ha => ha.failure, fun hf => ⟨fun n _ hn => ?_, hf⟩⟩
    obtain ⟨before, t, hz, hb, hgot⟩ :=
      retry_success (fun s u => u.ring.toList = s.ring.toList) hkept h hn
    obtain ⟨got, hg⟩ := hends t
    obtain ⟨hl, hm⟩ := hg.of_nonneg (by omega)
    exact ⟨before, t, _, got, hz, hb, by omega, hg.ring, hm⟩

end Read

/-- The returned values account for the packets exactly if no pass faults
after it has sent a packet, or with a packet in its hands. -/
theorem accounted_iff (nonblock : Bool) (count : Nat) :
    (∀ (buf : Nat → Option CanPacket) (wakes : List (Node × Bool)) (s : Node)
      (x : Int × List (Node × Node)), canWrite buf nonblock count wakes s = some x →
      (WriteAccounted buf x ↔
        (count % pktsize = 0 → ∀ t ∈ starts s wakes, ¬ TornWrite buf (count / pktsize) t))) ∧
    (∀ (writable : Nat → Bool) (wakes : List (UserRing × Bool)) (s : UserRing)
      (x : Int × List (UserRing × UserRing)), canRead writable nonblock count wakes s = some x →
      (ReadAccounted x ↔
        (pktsize ≤ count → ∀ t ∈ starts s wakes, ¬ TornRead writable (count / pktsize) t))) :=
  ⟨fun _ _ _ _ h => writeAccounted_iff h, fun _ _ _ _ h => readAccounted_iff h⟩

def idleNode : Node := .boot 1 noConsole (.init 1) .empty

def onePkt : UserRing := ⟨fun _ => default, (pktToRing testrwPkt (ringInit default)).1⟩

theorem accounted_two :
    (∃ x, canWrite (fun _ => some testrwPkt) true 32 [] idleNode = some x ∧ x.1 = 32 ∧
      WriteAccounted (fun _ => some testrwPkt) x) ∧
    ∃ y, canRead (fun _ => true) true 32 [] onePkt = some y ∧ y.1 = 16 ∧ ReadAccounted y := by
  refine ⟨⟨_, rfl, rfl, ?_⟩, ⟨_, rfl, rfl, ?_⟩⟩
  · refine ((accounted_iff true 32).1 _ [] idleNode _ rfl).mpr fun _ t _ ht => ?_
    obtain ⟨k, -, -, hb, -⟩ := ht
    cases hb
  · refine ((accounted_iff true 32).2 (fun _ => true) [] onePkt _ rfl).mpr fun _ t _ ht => ?_
    obtain ⟨k, -, -, hw⟩ := ht
    cases hw

def halfBuffer (j : Nat) : Option CanPacket := if j = 0 then some testrwPkt else none

/-- The first packet of the buffer is sent, the second cannot be read; and the
oldest packet of a ring is lost because there is nowhere to copy it. -/
theorem efault_loses_packets :
    (∃ x, canWrite halfBuffer true 32 [] idleNode = some x ∧ x.1 = -efault ∧
      ¬ WriteAccounted halfBuffer x) ∧
    ∃ y, canRead (fun _ => false) true 16 [] onePkt = some y ∧ y.1 = -efault ∧
      ¬ ReadAccounted y := by
  have hw : TornWrite halfBuffer 2 idleNode := ⟨1, by decide, by decide, rfl, by decide⟩
  have hr : TornRead (fun _ => false) 1 onePkt := ⟨0, by decide, by decide, rfl⟩
  refine ⟨⟨_, rfl, rfl, fun h => ?_⟩, ⟨_, rfl, rfl, fun h => ?_⟩⟩
  · have hiff := @writeAccounted_iff halfBuffer idleNode true 32 [] _ rfl
    exact hiff.mp h rfl idleNode (List.mem_singleton_self _) hw
  · have hiff := @readAccounted_iff (fun _ => false) onePkt true 16 [] _ rfl
    exact hiff.mp h (Nat.le_refl _) onePkt (List.mem_singleton_self _) hr

end Accounting

end MeikoCs2
