import MeikoCs2.Network
import Mathlib.Data.Fintype.Basic

/-! The threads of one cancon around `ackbuf`. Each mutex section is one step:
`signal_acknak` of the reader, and a round of the loop of `waitfor_acknak` from
the lock, or from the return of the timed wait, to the unlock or the next wait.
A wait may return without a timeout at any time, so whichever thread the
condition variable wakes is covered. Every round empties the buffer, whether
or not the replies in it were for the thread. -/

namespace MeikoCs2

abbrev cansendTmout : Nat := 2000000

inductive Call where
  | idle
  /-- behind `can_send` -/
  | sent (target : CanHeaderExt)
  /-- behind `gettimeofday`, before the lock -/
  | timed (target : CanHeaderExt) (deadline : Nat)
  /-- in `pthread_cond_timedwait` -/
  | asleep (target : CanHeaderExt) (deadline : Nat)
  | returned (target : CanHeaderExt) (response : Acknak)
  deriving DecidableEq

def Call.target : Call → Option CanHeaderExt
  | .sent t => some t
  | .timed t _ => some t
  | .asleep t _ => some t
  | _ => none

def Call.inTime (now : Nat) : Call → Bool
  | .timed _ d => now < d
  | .asleep _ d => now < d
  | _ => true

def Call.awaits (ext : CanHeaderExt) (c : Call) : Prop := ∃ t ∈ c.target, isOurAcknak ext t = true

instance (ext : CanHeaderExt) (c : Call) : Decidable (c.awaits ext) :=
  inferInstanceAs (Decidable (∃ t ∈ c.target, _))

/-- The threads `I` of a process. `got` tells whether the reader has received
a reply for the call of a thread since its `can_send` and in time. -/
structure AckState (I P : Type) where
  ackbuf : List (AckPkt P)
  clock : Nat
  calls : I → Call
  got : I → Bool

inductive AckLabel (I P : Type) where
  | send (i : I) (target : CanHeaderExt)
  | gettime (i : I)
  | lock (i : I)
  | wake (i : I)
  | timeout (i : I)
  | receive (m : Msg P)
  | tick (n : Nat)

variable {I P : Type}

def Kept (s : AckState I P) (i : I) : Prop :=
  (∃ t r, s.calls i = .returned t r ∧ r ≠ .timedout) ∨
    ∃ t ∈ (s.calls i).target, ∃ e ∈ s.ackbuf, isOurAcknak e.ext t = true

theorem Kept.congr {s u : AckState I P} {j : I} (h : Kept s j) (hc : u.calls j = s.calls j)
    (hb : s.ackbuf ⊆ u.ackbuf) : Kept u j := by
  rcases h with ⟨t, r, ht, hr⟩ | ⟨t, ht, e, he, hm⟩
  · exact .inl ⟨t, r, by rw [hc, ht], hr⟩
  · exact .inr ⟨t, by rw [hc]; exact ht, e, hb he, hm⟩

variable [DecidableEq I]

namespace AckState

def setCall (i : I) (c : Call) (s : AckState I P) : AckState I P :=
  { s with calls := Function.update s.calls i c }

def round (i : I) (t : CanHeaderExt) (deadline : Nat) (timedout : Bool) (s : AckState I P) :
    AckState I P :=
  match scanAckbuf t s.ackbuf with
  | some e => { s.setCall i (.returned t (.ofType e.ext.type)) with ackbuf := [] }
  | none =>
    { s.setCall i (if timedout then .returned t .timedout else .asleep t deadline) with
      ackbuf := [] }

def step (l : AckLabel I P) (s : AckState I P) : Option (AckState I P) :=
  match l with
  | .send i t =>
    match s.calls i with
    | .idle | .returned _ _ =>
      some { s.setCall i (.sent t) with got := Function.update s.got i false }
    | _ => none
  | .gettime i =>
    match s.calls i with
    | .sent t => some (s.setCall i (.timed t (s.clock + cansendTmout)))
    | _ => none
  | .lock i =>
    match s.calls i with
    | .timed t d => some (s.round i t d false)
    | _ => none
  | .wake i =>
    match s.calls i with
    | .asleep t d => some (s.round i t d false)
    | _ => none
  | .timeout i =>
    match s.calls i with
    | .asleep t d => if d ≤ s.clock then some (s.round i t d true) else none
    | _ => none
  | .receive m =>
    some
      { s with
        ackbuf := signalAcknak m s.ackbuf
        got := fun i =>
          s.got i || decide ((s.calls i).awaits m.pkt.ext ∧ (s.calls i).inTime s.clock = true) }
  | .tick n => some { s with clock := s.clock + n }

end AckState

def AckStep (s : AckState I P) (l : AckLabel I P) (u : AckState I P) : Prop := s.step l = some u

def AckLabel.isRound (i : I) : AckLabel I P → Prop
  | .lock j => j = i
  | .wake j => j = i
  | .timeout j => j = i
  | _ => False

/-- A thread empties the buffer only of replies that no other thread waits for,
and a reply that one waits for finds room. -/
def Spares (s : AckState I P) (l : AckLabel I P) : Prop :=
  (∀ i, l.isRound i → ∀ j, j ≠ i → ∀ e ∈ s.ackbuf, ¬ (s.calls j).awaits e.ext) ∧
  match l with
  | .receive m => (∃ i, (s.calls i).awaits m.pkt.ext) → s.ackbuf.length < ackbufLen
  | _ => True

/-- A call that a reply was received for in time has not timed out; if it has
not returned, its next round returns the reply, and there is one. -/
structure NoReplyLost (s : AckState I P) : Prop where
  returned : ∀ i t, s.got i = true → s.calls i ≠ .returned t .timedout
  next : ∀ i l u, s.got i = true → l.isRound i → AckStep s l u →
    ∃ t r, u.calls i = .returned t r ∧ r ≠ .timedout
  ends : ∀ i, s.got i = true →
    ∃ tr u t r, Run AckStep s tr u ∧ u.calls i = .returned t r ∧ r ≠ .timedout

theorem Acknak.ofType_ne (t : CanType) : Acknak.ofType t ≠ .timedout := by
  unfold Acknak.ofType
  split_ifs <;> decide

theorem scanAckbuf_isSome {t : CanHeaderExt} {buf : List (AckPkt P)} {e : AckPkt P} (he : e ∈ buf)
    (hm : isOurAcknak e.ext t = true) : ∃ e', scanAckbuf t buf = some e' := by
  refine Option.ne_none_iff_exists'.mp fun hn => ?_
  rw [scanAckbuf, List.getLast?_eq_none_iff, List.filter_eq_nil_iff] at hn
  exact hn e he hm

theorem subset_signalAcknak (m : Msg P) (buf : List (AckPkt P)) : buf ⊆ signalAcknak m buf := by
  unfold signalAcknak
  split_ifs
  · exact List.subset_append_left _ _
  · exact List.Subset.refl _

variable {s u : AckState I P} {l : AckLabel I P}

theorem round_of_isRound {i : I} (hl : l.isRound i) (h : AckStep s l u) :
    ∃ t d b, (s.calls i).target = some t ∧ u = s.round i t d b := by
  cases l with
  | lock j =>
    obtain rfl : j = i := hl
    simp only [AckStep, AckState.step] at h
    split at h
    · rename_i hc
      exact ⟨_, _, _, by rw [hc]; rfl, (Option.some.inj h).symm⟩
    · cases h
  | wake j =>
    obtain rfl : j = i := hl
    simp only [AckStep, AckState.step] at h
    split at h
    · rename_i hc
      exact ⟨_, _, _, by rw [hc]; rfl, (Option.some.inj h).symm⟩
    · cases h
  | timeout j =>
    obtain rfl : j = i := hl
    simp only [AckStep, AckState.step] at h
    split at h
    · rename_i hc
      split_ifs at h
      exact ⟨_, _, _, by rw [hc]; rfl, (Option.some.inj h).symm⟩
    · cases h
  | _ => exact absurd hl id

theorem round_got (s : AckState I P) (i : I) (t : CanHeaderExt) (d : Nat) (b : Bool) :
    (s.round i t d b).got = s.got := by
  unfold AckState.round
  split <;> rfl

theorem round_calls_of_ne (s : AckState I P) {i j : I} (hj : j ≠ i) (t : CanHeaderExt) (d : Nat)
    (b : Bool) : (s.round i t d b).calls j = s.calls j := by
  unfold AckState.round AckState.setCall
  split <;> exact Function.update_of_ne hj _ _

theorem round_returns {i : I} {t : CanHeaderExt} {e : AckPkt P} (he : e ∈ s.ackbuf)
    (hm : isOurAcknak e.ext t = true) (d : Nat) (b : Bool) :
    ∃ r, (s.round i t d b).calls i = .returned t r ∧ r ≠ .timedout := by
  obtain ⟨e', hs⟩ := scanAckbuf_isSome he hm
  refine ⟨.ofType e'.ext.type, ?_, Acknak.ofType_ne _⟩
  simp only [AckState.round, hs, AckState.setCall, Function.update_self]

theorem Kept.round {j : I} (h : Kept s j) {i : I} {t : CanHeaderExt}
    (ht : (s.calls i).target = some t)
    (hsp : ∀ j, j ≠ i → ∀ e ∈ s.ackbuf, ¬ (s.calls j).awaits e.ext) (d : Nat) (b : Bool) :
    Kept (s.round i t d b) j := by
  rcases eq_or_ne j i with rfl | hj
  · rcases h with ⟨t', r, hc, _⟩ | ⟨t', ht', e, he, hm⟩
    · rw [hc] at ht
      cases ht
    · obtain rfl : t = t' := Option.some.inj (ht.symm.trans ht')
      obtain ⟨r, hc, hr⟩ := round_returns he hm d b
      exact .inl ⟨t, r, hc, hr⟩
  · rcases h with ⟨t', r, hc, hr⟩ | ⟨t', ht', e, he, hm⟩
    · exact .inl ⟨t', r, by rw [round_calls_of_ne s hj, hc], hr⟩
    · exact absurd ⟨t', ht', hm⟩ (hsp j hj e he)

theorem kept_send (h : ∀ i, s.got i = true → Kept s i) (i : I) (t : CanHeaderExt) :
    ∀ j, Function.update s.got i false j = true →
      Kept { s.setCall i (.sent t) with got := Function.update s.got i false } j := by
  intro j hj
  rcases eq_or_ne j i with rfl | hne
  · rw [Function.update_self] at hj
    cases hj
  · rw [Function.update_of_ne hne] at hj
    exact (h j hj).congr (Function.update_of_ne hne _ _) (List.Subset.refl _)

theorem kept_gettime (h : ∀ i, s.got i = true → Kept s i) {i : I} {t : CanHeaderExt}
    (hc : s.calls i = .sent t) (d : Nat) :
    ∀ j, s.got j = true → Kept (s.setCall i (.timed t d)) j := by
  intro j hj
  rcases eq_or_ne j i with rfl | hne
  · rcases h j hj with ⟨t', r, hr, _⟩ | ⟨t', ht, e, he, hm⟩
    · rw [hc] at hr
      cases hr
    · rw [hc] at ht
      obtain rfl : t = t' := Option.some.inj ht
      refine .inr ⟨t, ?_, e, he, hm⟩
      simp only [AckState.setCall, Function.update_self]
      rfl
  · exact (h j hj).congr (Function.update_of_ne hne _ _) (List.Subset.refl _)

theorem kept_step (h : ∀ i, s.got i = true → Kept s i) (hs : AckStep s l u) (hsp : Spares s l) :
    ∀ i, u.got i = true → Kept u i := by
  have hround : ∀ i, l.isRound i → ∀ j, u.got j = true → Kept u j := fun i hl j hj => by
    obtain ⟨t, d, b, ht, rfl⟩ := round_of_isRound hl hs
    rw [round_got] at hj
    exact (h j hj).round ht (hsp.1 i hl) d b
  cases l with
  | lock i => exact hround i rfl
  | wake i => exact hround i rfl
  | timeout i => exact hround i rfl
  | send i t =>
    simp only [AckStep, AckState.step] at hs
    split at hs
    · rw [← Option.some.inj hs]
      exact kept_send h i t
    · rw [← Option.some.inj hs]
      exact kept_send h i t
    · cases hs
  | gettime i =>
    simp only [AckStep, AckState.step] at hs
    split at hs
    · rename_i hc
      rw [← Option.some.inj hs]
      exact kept_gettime h hc _
    · cases hs
  | receive m =>
    rw [← Option.some.inj hs]
    intro i hi
    rcases Bool.or_eq_true_iff.mp hi with hi | hi
    · exact (h i hi).congr rfl (subset_signalAcknak m _)
    · -- the reply has found room in the buffer
      obtain ⟨haw, _⟩ := of_decide_eq_true hi
      have hroom := hsp.2 ⟨i, haw⟩
      obtain ⟨t, ht, hm⟩ := haw
      refine .inr ⟨t, ht, ⟨m.pkt.ext, m.pkt.dat, m.origin⟩, ?_, hm⟩
      simp only [signalAcknak, if_pos hroom]
      exact List.mem_append_right _ (List.mem_singleton_self _)
  | tick n =>
    rw [← Option.some.inj hs]
    exact h

theorem exists_end {i : I} {t : CanHeaderExt} (ht : t ∈ (s.calls i).target) {e : AckPkt P}
    (he : e ∈ s.ackbuf) (hm : isOurAcknak e.ext t = true) :
    ∃ tr u r, Run AckStep s tr u ∧ u.calls i = .returned t r ∧ r ≠ .timedout := by
  have hlock : ∀ {v : AckState I P} {d : Nat}, v.calls i = .timed t d →
      AckStep v (.lock i) (v.round i t d false) := fun hv => by
    simp only [AckStep, AckState.step, hv]
  cases hc : s.calls i with
  | sent t' =>
    rw [hc] at ht
    obtain rfl : t' = t := Option.some.inj ht
    have hg : AckStep s (.gettime i) (s.setCall i (.timed t' (s.clock + cansendTmout))) := by
      simp only [AckStep, AckState.step, hc]
    have hself : (s.setCall i (.timed t' (s.clock + cansendTmout))).calls i =
        .timed t' (s.clock + cansendTmout) := Function.update_self _ _ _
    obtain ⟨r, hr⟩ := @round_returns _ _ _ (s.setCall i (.timed t' (s.clock + cansendTmout))) i t' e
      he hm (s.clock + cansendTmout) false
    exact ⟨_, _, r, (Run.nil.snoc hg).snoc (hlock hself), hr⟩
  | timed t' d =>
    rw [hc] at ht
    obtain rfl : t' = t := Option.some.inj ht
    obtain ⟨r, hr⟩ := round_returns (i := i) he hm d false
    exact ⟨_, _, r, Run.nil.snoc (hlock hc), hr⟩
  | asleep t' d =>
    rw [hc] at ht
    obtain rfl : t' = t := Option.some.inj ht
    -- at the latest the deadline ends the wait
    have htick : AckStep s (.tick d) { s with clock := s.clock + d } := rfl
    have hout : AckStep { s with clock := s.clock + d } (.timeout i)
        (AckState.round i t' d true { s with clock := s.clock + d }) := by
      simp only [AckStep, AckState.step, hc, if_pos (Nat.le_add_left d s.clock)]
    obtain ⟨r, hr⟩ := @round_returns _ _ _ { s with clock := s.clock + d } i t' e he hm d true
    exact ⟨_, _, r, (Run.nil.snoc htick).snoc hout, hr⟩
  | _ =>
    rw [hc] at ht
    cases ht

theorem noReplyLost_of_kept (h : ∀ i, s.got i = true → Kept s i) : NoReplyLost s where
  returned i t hi hc := by
    rcases h i hi with ⟨t', r, hr, hne⟩ | ⟨t', ht, _⟩
    · rw [hc, Call.returned.injEq] at hr
      exact hne hr.2.symm
    · rw [hc] at ht
      cases ht
  next i l u hi hl hs := by
    obtain ⟨t, d, b, ht, rfl⟩ := round_of_isRound hl hs
    rcases h i hi with ⟨t', r, hr, _⟩ | ⟨t', ht', e, he, hm⟩
    · rw [hr] at ht
      cases ht
    · obtain rfl : t = t' := Option.some.inj (ht.symm.trans ht')
      obtain ⟨r, hc, hr⟩ := round_returns he hm d b
      exact ⟨t, r, hc, hr⟩
  ends i hi := by
    rcases h i hi with ⟨t, r, hr, hne⟩ | ⟨t, ht, e, he, hm⟩
    · exact ⟨[], s, t, r, .nil, hr, hne⟩
    · obtain ⟨tr, u, r, hrun, hc, hr⟩ := exists_end ht he hm
      exact ⟨tr, u, t, r, hrun, hc, hr⟩

/-- In every run of the threads in which no thread empties the buffer of a
reply that another one waits for, and every such reply finds room, a call that
a reply is received for in time returns it. -/
theorem no_reply_lost {s₀ : AckState I P} {tr : List (AckState I P × AckLabel I P)}
    (h₀ : ∀ i, s₀.got i = false) (h : Run AckStep s₀ tr s) (hsp : ∀ x ∈ tr, Spares x.1 x.2) :
    NoReplyLost s := by
  refine noReplyLost_of_kept ?_
  refine @Run.invariant_of _ _ _ _ _ _ (fun s => ∀ i, s.got i = true → Kept s i) _ h ?_ ?_ hsp
  · intro i hi
    rw [h₀ i] at hi
    cases hi
  · exact fun _ _ _ hk hok hst => kept_step hk hst hok

/-- A round here is a scan of the network: it leaves the same buffer, and the
thread goes on with the response or stays. -/
theorem round_scan [DecidableEq P] {n n' : Net P} {p : P} {k : Nat} {t : CanHeaderExt}
    {dat : CanDat} {f : Acknak × CanDat → CanProg Int} {b : Bool}
    (ht : (n.procs p).threads[k]? = some (.op (.waitforAcknak t dat) f))
    (hn : NetStep n (.scan p k b) n') (hs : s.ackbuf = (n.procs p).ackbuf) (i : I) (d : Nat) :
    (n'.procs p).ackbuf = (s.round i t d b).ackbuf ∧
    ((∃ r dat', (s.round i t d b).calls i = .returned t r ∧
      (n'.procs p).threads = (n.procs p).threads.set k (f (r, dat'))) ∨
    ((s.round i t d b).calls i = .asleep t d ∧ (n'.procs p).threads = (n.procs p).threads)) := by
  simp only [NetStep, Net.step, scanThread, ht] at hn
  simp only [AckState.round, hs]
  cases hscan : scanAckbuf t (n.procs p).ackbuf with
  | some e =>
    rw [hscan] at hn
    rw [← Option.some.inj hn]
    refine ⟨by simp [Net.setProc], .inl ⟨.ofType e.ext.type, e.dat, ?_, ?_⟩⟩
    · simp [AckState.setCall]
    · simp [Net.setProc, Proc.setThread]
  | none =>
    rw [hscan] at hn
    cases b with
    | true =>
      rw [← Option.some.inj hn]
      refine ⟨by simp [Net.setProc], .inl ⟨.timedout, dat, ?_, ?_⟩⟩
      · simp [AckState.setCall]
      · simp [Net.setProc, Proc.setThread]
    | false =>
      rw [← Option.some.inj hn]
      refine ⟨by simp [Net.setProc], .inr ⟨?_, ?_⟩⟩
      · simp [AckState.setCall]
      · simp [Net.setProc]

instance (i : I) (l : AckLabel I P) : Decidable (l.isRound i) :=
  match l with
  | .lock _ | .wake _ | .timeout _ => inferInstanceAs (Decidable (_ = _))
  | .send _ _ | .gettime _ | .receive _ | .tick _ => isFalse id

instance [Fintype I] (s : AckState I P) (l : AckLabel I P) : Decidable (Spares s l) :=
  match l with
  | .receive _ => inferInstanceAs (Decidable (_ ∧ ((∃ i, (s.calls i).awaits _) → _)))
  | .lock _ | .wake _ | .timeout _ | .send _ _ | .gettime _ | .tick _ =>
    inferInstanceAs (Decidable (_ ∧ True))

def idleThreads : AckState Bool Unit := ⟨[], 0, fun _ => .idle, fun _ => false⟩

def datTarget : CanHeaderExt := ⟨0, .dat, 0, 0, 1, 0⟩

def brkTarget : CanHeaderExt := ⟨0, .wo, 0, 0, 1, Canobj.brk⟩

def datAck : Msg Unit where
  src := ⟨0, 0, 1⟩
  dst := ⟨0, 0, 2⟩
  pkt := { (default : CanPacket) with ext := { datTarget with type := .ack } }
  origin := ⟨⟨0, 0, 2⟩, some (), 0, { (default : CanPacket) with ext := datTarget }⟩

def writerRun : List (AckLabel Bool Unit) :=
  [.send false datTarget, .gettime false, .lock false, .receive datAck, .wake false]

theorem no_reply_lost_writer :
    ∃ tr s, Run AckStep idleThreads tr s ∧ s.got false = true ∧
      s.calls false = .returned datTarget .ack ∧ NoReplyLost s := by
  have hs : (steps (fun s l => AckState.step l s) (fun s l => decide (Spares s l)) idleThreads
      writerRun).any (fun s => decide (s.got false = true ∧
        s.calls false = .returned datTarget .ack)) = true := by decide +kernel
  obtain ⟨s, hs, hg⟩ := (Option.any_eq_true _ _).mp hs
  obtain ⟨tr, hr, -, hok⟩ := exists_run_of_steps hs
  obtain ⟨h₁, h₂⟩ := of_decide_eq_true hg
  refine ⟨tr, s, hr, h₁, h₂, ?_⟩
  exact no_reply_lost (fun _ => rfl) hr fun x hx => of_decide_eq_true (hok x hx)

/-- The user types a break while the writer waits: the `tty_reader` finds the
writer's ACK in the buffer and throws it away. -/
def breakRun : List (AckLabel Bool Unit) :=
  [.send false datTarget, .gettime false, .lock false, .send true brkTarget, .gettime true,
    .receive datAck, .lock true, .tick cansendTmout, .timeout false]

theorem reply_lost_to_break :
    ∃ tr s, Run AckStep idleThreads tr s ∧ tr.map Prod.snd = breakRun ∧ ¬ NoReplyLost s := by
  have hs : (steps (fun s l => AckState.step l s) (fun _ _ => true) idleThreads
      breakRun).any (fun s => decide (s.got false = true ∧
        s.calls false = .returned datTarget .timedout)) = true := by decide +kernel
  obtain ⟨s, hs, hg⟩ := (Option.any_eq_true _ _).mp hs
  obtain ⟨tr, hr, hl, -⟩ := exists_run_of_steps hs
  obtain ⟨h₁, h₂⟩ := of_decide_eq_true hg
  exact ⟨tr, s, hr, hl, fun hn => hn.returned false datTarget h₁ h₂⟩

end MeikoCs2
