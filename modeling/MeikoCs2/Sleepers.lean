import MeikoCs2.FanOut
import MeikoCs2.Stall
import MeikoCs2.Outgoing

/-! Blocking `can_read` and `can_write`. A call tests its queue and goes to
sleep in two steps, and what happens between them wakes nobody: the process is
not on the wait queue yet. Nor does anything wake a writer whose packet waits
for room in `inq`. -/

namespace MeikoCs2

def eintr : Int := 4
def eio : Int := 5

/-- Where a process is in `can_read` and `can_write`. An element `none` of the
buffer of a write is a packet that `copy_from_user` cannot read. -/
inductive Caller where
  | returned (retval : Int)
  -- in `ring_to_user`, with the packets asked for and those copied
  | reading (fd : Fin canMaxUsecount) (count got : Nat)
  | readTested (fd : Fin canMaxUsecount) (count : Nat)
  | readAsleep (fd : Fin canMaxUsecount) (count : Nat)
  | readWoken (fd : Fin canMaxUsecount) (count : Nat)
  -- in `user_to_outq`, with the packets left and the number of those sent
  | writing (buf : List (Option CanPacket)) (i : Nat)
  | writeTested (buf : List (Option CanPacket))
  | writeAsleep (buf : List (Option CanPacket))
  | writeWoken (buf : List (Option CanPacket))

def Caller.asleep : Caller → Bool
  | .readAsleep _ _ | .writeAsleep _ => true
  | _ => false

/-- The sleepers on `writeq`, and on `readq` of the files given, wake up. -/
def Caller.wake (writeq : Bool) (readq : Fin canMaxUsecount → Bool) : Caller → Caller
  | .readAsleep fd count => if readq fd then .readWoken fd count else .readAsleep fd count
  | .writeAsleep buf => if writeq then .writeWoken buf else .writeAsleep buf
  | x => x

/-- `try_xmit` wakes the writers if it transmitted a packet. -/
def wakesWriteq (s u : Node) : Bool := decide (s.transmitted.length < u.transmitted.length)

/-- `deliver_pkt` wakes the readers of a file in whose ring it puts a packet. -/
def wakesReadq (s : Node) (fd : Fin canMaxUsecount) : NodeOp → Bool
  | .bh =>
    match ringToPkt s.inq with
    | none => false
    | some (pkt, q) =>
      !(deliverPkt pkt { s with inq := q }).1.halted &&
        (s.fds.openfd fd).any fun f =>
          wants (isMypacket s.canNodeid pkt) f && (pktToRing pkt f.inq).2
  | _ => false

structure Sleepers where
  node : Node
  callers : Nat → Caller

namespace Sleepers

inductive Op where
  -- the bottom half, the parts of the interrupt handler and what else happens
  -- on the node
  | node (op : NodeOp)
  | open
  | release (fd : Fin canMaxUsecount)
  | ioctl (fd : Fin canMaxUsecount) (cmd : IoctlCmd) (fault : Bool)
  | canRead (p : Nat) (fd : Fin canMaxUsecount) (count : Nat)
  -- one round of the loop, and whether `copy_to_user` succeeds
  | ringToUser (p : Nat) (ok : Bool)
  -- whole packets, and the bytes behind them
  | canWrite (p : Nat) (buf : List (Option CanPacket)) (bytes : Nat)
  | userToOutq (p : Nat)
  | sleep (p : Nat)
  | signal (p : Nat)
  -- the return from `interruptible_sleep_on`
  | resume (p : Nat) (sigpending : Bool)

def setCaller (p : Nat) (x : Caller) (s : Sleepers) : Sleepers :=
  { s with callers := Function.update s.callers p x }

def become (u : Node) (readq : Fin canMaxUsecount → Bool) (s : Sleepers) : Sleepers :=
  ⟨u, fun p => (s.callers p).wake (wakesWriteq s.node u) readq⟩

def ringToUserRound (p : Nat) (fd : Fin canMaxUsecount) (count got : Nat) (ok : Bool) (f : FileState)
    (s : Sleepers) : Sleepers :=
  if got < count then
    match ringToPkt f.inq with
    | none => setCaller p (if got = 0 then .readTested fd count else .returned (got * pktsize)) s
    | some (_, q) =>
      setCaller p (if ok then .reading fd count (got + 1) else .returned (-efault))
        { s with node :=
          { s.node with fds := s.node.fds.modify fd fun f => { f with inq := q } } }
  else setCaller p (.returned (got * pktsize)) s

def userToOutqRound (p : Nat) (buf : List (Option CanPacket)) (i : Nat) (s : Sleepers) : Sleepers :=
  match buf with
  | [] => setCaller p (if i = 0 then .writeTested [] else .returned (i * pktsize)) s
  | none :: _ => setCaller p (.returned (-efault)) s
  | some pkt :: rest =>
    let r := sendPkt pkt s.node
    let x : Caller :=
      if r.2 then .writing rest (i + 1)
      else if i = 0 then .writeTested (some pkt :: rest)
      else .returned (i * pktsize)
    setCaller p x (become r.1 (fun _ => false) s)

def setsFiles : NodeOp → Bool
  | .files _ => true
  | _ => false

def act (s : Sleepers) : Op → Option Sleepers
  -- the table of files is reached by the calls below only
  | .node op =>
    if setsFiles op then none
    else (s.node.act op).map fun u => become u (fun fd => wakesReadq s.node fd op) s
  | .open =>
    (canAllocOpenfd s.node.fds).map fun x => { s with node := { s.node with fds := x.2 } }
  | .release fd =>
    some { s with node :=
      { s.node with fds := canReleaseOpenfd fd s.node.canNodeid s.node.fds } }
  | .ioctl fd cmd fault => some (become (canIoctl fd cmd fault s.node).1 (fun _ => false) s)
  | .canRead p fd count =>
    match s.callers p with
    | .returned _ =>
      some (setCaller p
        (if count < pktsize then .returned (-eio) else .reading fd (count / pktsize) 0) s)
    | _ => none
  | .ringToUser p ok =>
    match s.callers p with
    | .reading fd count got => (s.node.fds.openfd fd).map fun f => ringToUserRound p fd count got ok f s
    | _ => none
  | .canWrite p buf bytes =>
    match s.callers p with
    | .returned _ => some (setCaller p (if bytes = 0 then .writing buf 0 else .returned (-eio)) s)
    | _ => none
  | .userToOutq p =>
    match s.callers p with
    | .writing buf i => some (userToOutqRound p buf i s)
    | _ => none
  | .sleep p =>
    match s.callers p with
    | .readTested fd count => some (setCaller p (.readAsleep fd count) s)
    | .writeTested buf => some (setCaller p (.writeAsleep buf) s)
    | _ => none
  | .signal p =>
    match s.callers p with
    | .readAsleep _ _ | .writeAsleep _ => some (setCaller p (.returned (-eintr)) s)
    | _ => none
  | .resume p sigpending =>
    match s.callers p with
    | .readWoken fd count =>
      some (setCaller p (if sigpending then .returned (-eintr) else .reading fd count 0) s)
    | .writeWoken buf =>
      some (setCaller p (if sigpending then .returned (-eintr) else .writing buf 0) s)
    | _ => none

/-- After `machine_halt` nothing happens. -/
def step (s : Sleepers) (op : Op) : Option Sleepers := if s.node.halted then none else s.act op

abbrev Step (s : Sleepers) (op : Op) (u : Sleepers) : Prop := step s op = some u

def boot (n : Node) : Sleepers := ⟨canInit n, fun _ => .returned 0⟩

def noPackets (s : Node) (fd : Fin canMaxUsecount) : Bool :=
  (s.fds.openfd fd).all fun f => f.inq.empty

/-- Whether a process that goes to sleep, or sleeps, waits for something that
will wake it: a packet in its ring, or one that leaves the full `outq`. -/
def waits (s : Node) : Caller → Bool
  | .readTested fd _ | .readAsleep fd _ => noPackets s fd
  | .writeTested buf | .writeAsleep buf =>
    match buf with
    | some pkt :: _ => !isMypacket s.canNodeid pkt && s.outq.full
    | _ => false
  | _ => true

/-- A process sleeps although there is a packet to read, or although its write
is complete or its next packet would be taken. -/
def forgotten (s : Sleepers) (p : Nat) : Bool :=
  match s.callers p with
  | .readAsleep fd _ => !noPackets s.node fd
  | .writeAsleep buf =>
    match buf with
    | some pkt :: _ => (sendPkt pkt s.node).2
    | _ => true
  | _ => false

/-- Nothing is left for the bottom half and the interrupt handler to do. -/
structure AtRest (s : Sleepers) : Prop where
  inq : s.node.inq.toList = []
  outq : s.node.outq.toList = []
  xmitAvail : s.node.xmitAvail = true
  halted : s.node.halted = false

def Inv (s : Sleepers) : Prop :=
  ∀ p, (s.callers p).asleep = true → waits s.node (s.callers p) = true

/-- A call goes to sleep while it has something to wait for. -/
def sleepsInTime (s : Sleepers) : Op → Bool
  | .sleep p => waits s.node (s.callers p)
  | _ => true

variable {s u : Sleepers}

theorem inv_boot (n : Node) : Inv (boot n) := by
  intro p hp
  cases hp

theorem Inv.not_forgotten (h : Inv s) (p : Nat) : s.forgotten p = false := by
  have hp := h p
  unfold forgotten
  cases hc : s.callers p with
  | readAsleep fd count =>
    rw [hc] at hp
    have hw : noPackets s.node fd = true := hp rfl
    simp only [hw, Bool.not_true]
  | writeAsleep buf =>
    rw [hc] at hp
    have hw := hp rfl
    cases buf with
    | nil => cases hw
    | cons x rest =>
      cases x with
      | none => cases hw
      | some pkt =>
        simp only [waits, Bool.and_eq_true, Bool.not_eq_true'] at hw
        simp only [sendPkt_snd, hw.1, hw.2, Bool.false_eq_true, if_false, Bool.not_true]
  | _ => rfl

/-- At rest nothing else forgets a sleeper: there is room in both queues. -/
theorem AtRest.forgotten_iff (h : AtRest s) (p : Nat) :
    s.forgotten p = true ↔
      (s.callers p).asleep = true ∧ waits s.node (s.callers p) = false := by
  have hroom : ∀ r : PktRing, r.toList = [] → r.full = false := by
    intro r hr
    rw [Bool.eq_false_iff, Ne, Ring.full_iff _ (by decide), ← Ring.length_toList, hr]
    decide
  unfold forgotten
  cases s.callers p with
  | readAsleep fd count => simp [Caller.asleep, waits]
  | writeAsleep buf =>
    cases buf with
    | nil => simp [Caller.asleep, waits]
    | cons x rest =>
      cases x with
      | none => simp [Caller.asleep, waits]
      | some pkt =>
        simp [Caller.asleep, waits, sendPkt_snd, hroom _ h.inq, hroom _ h.outq]
  | _ => simp [Caller.asleep]

/-- What becomes of a sleeper when the node goes from `v` to `w`. -/
theorem waits_wake {v w : Node} {readq : Fin canMaxUsecount → Bool} (hp : Pushes v w)
    (hr : ∀ fd, readq fd = false → noPackets v fd = true → noPackets w fd = true) {x : Caller}
    (hx : (x.wake (wakesWriteq v w) readq).asleep = true) (hw : waits v x = true) :
    waits w (x.wake (wakesWriteq v w) readq) = true := by
  cases x with
  | readAsleep fd count =>
    cases hq : readq fd with
    | true =>
      rw [Caller.wake, hq] at hx
      cases hx
    | false =>
      rw [Caller.wake, hq]
      exact hr fd hq hw
  | writeAsleep buf =>
    cases hq : wakesWriteq v w with
    | true =>
      rw [Caller.wake, hq] at hx
      cases hx
    | false =>
      rw [Caller.wake]
      have hle : w.transmitted.length ≤ v.transmitted.length :=
        Nat.le_of_not_lt (of_decide_eq_false hq)
      cases buf with
      | nil => cases hw
      | cons x rest =>
        cases x with
        | none => cases hw
        | some pkt =>
          have hw' : isMypacket v.canNodeid pkt = false ∧ v.outq.full = true := by
            simpa [waits] using hw
          have hw₂ : (!isMypacket w.canNodeid pkt && w.outq.full) = true := by
            rw [hp.canNodeid, hw'.1, hp.full hw'.2 hle]
            rfl
          exact hw₂
  | returned _ => cases hx
  | reading _ _ _ => cases hx
  | readTested _ _ => cases hx
  | readWoken _ _ => cases hx
  | writing _ _ => cases hx
  | writeTested _ => cases hx
  | writeWoken _ => cases hx

theorem asleep_of_wake {x : Caller} {writeq : Bool} {readq : Fin canMaxUsecount → Bool}
    (h : (x.wake writeq readq).asleep = true) : x.asleep = true := by
  cases x with
  | readAsleep _ _ => rfl
  | writeAsleep _ => rfl
  | _ => cases h

theorem Inv.become (h : Inv s) {w : Node} {readq : Fin canMaxUsecount → Bool}
    (hp : Pushes s.node w)
    (hr : ∀ fd, readq fd = false → noPackets s.node fd = true → noPackets w fd = true) :
    Inv (become w readq s) :=
  fun p hx => waits_wake hp hr hx (h p (asleep_of_wake hx))

theorem Inv.setCaller (h : Inv s) {p : Nat} {x : Caller}
    (hx : x.asleep = true → waits s.node x = true) : Inv (setCaller p x s) := by
  intro q hq
  by_cases he : q = p
  · subst he
    simp only [Sleepers.setCaller, Function.update_self] at hq ⊢
    exact hx hq
  · simp only [Sleepers.setCaller, Function.update_of_ne he] at hq ⊢
    exact h q hq

theorem Inv.awake (h : Inv s) {p : Nat} {x : Caller} (hx : x.asleep = false) :
    Inv (Sleepers.setCaller p x s) := by
  apply h.setCaller
  intro ha
  rw [hx] at ha
  cases ha

theorem Inv.awake_ite (h : Inv s) {p : Nat} {c : Prop} [Decidable c] {x y : Caller}
    (hx : x.asleep = false) (hy : y.asleep = false) :
    Inv (Sleepers.setCaller p (if c then x else y) s) := by
  split_ifs
  · exact h.awake hx
  · exact h.awake hy

/-- The table of files changes, and no ring gets a packet. -/
theorem Inv.files (h : Inv s) {t : FdTable}
    (ht : ∀ fd, noPackets s.node fd = true → noPackets { s.node with fds := t } fd = true) :
    Inv { s with node := { s.node with fds := t } } := by
  intro p hp
  have hw := h p hp
  change waits _ (s.callers p) = true
  change (s.callers p).asleep = true at hp
  cases hc : s.callers p with
  | readAsleep fd count =>
    rw [hc] at hw
    exact ht fd hw
  | writeAsleep buf =>
    rw [hc] at hw
    exact hw
  | _ =>
    rw [hc] at hp
    cases hp

theorem noPackets_of_fds {v w : Node} (h : w.fds = v.fds) (fd : Fin canMaxUsecount) :
    noPackets w fd = noPackets v fd := by rw [noPackets, noPackets, h]

/-- A packet that goes into an empty ring wakes the readers of the file. -/
theorem noPackets_bh {v w : Node} (hw : bhRound v = some w) {fd : Fin canMaxUsecount}
    (hq : wakesReadq v fd .bh = false) (hn : noPackets v fd = true) : noPackets w fd = true := by
  obtain ⟨pkt, q, hg, rfl⟩ := bhRound_eq_some hw
  simp only [wakesReadq, hg] at hq
  cases hh : (deliverPkt pkt { v with inq := q }).1.halted with
  | true =>
    rw [noPackets_of_fds (deliverPkt_fds_of_halted hh)]
    exact hn
  | false =>
    obtain ⟨-, -, hfds⟩ := deliverPkt_spec pkt { v with inq := q } hh
    rw [hh, Bool.not_false, Bool.true_and] at hq
    rw [noPackets, hfds, deliverFds]
    rw [noPackets] at hn
    cases hf : v.fds.openfd fd with
    | none =>
      simp only [hf]
      rfl
    | some f =>
      rw [hf] at hq hn
      have hempty : f.inq.empty = true := hn
      have hput : (pktToRing pkt f.inq).2 = true := by
        have hsize := (Ring.empty_iff f.inq).mp hempty
        rw [pktToRing, Ring.put_snd, Bool.not_eq_true']
        rw [Bool.eq_false_iff, Ne, Ring.full_iff _ (by decide), hsize]
        decide
      have hwants : wants (isMypacket v.canNodeid pkt) f = false := by
        simpa [hput] using hq
      simp only [hf, Option.map_some, hwants, Bool.false_eq_true, if_false, Option.all_some]
      exact hempty

theorem Inv.node (h : Inv s) {op : NodeOp} (hop : setsFiles op = false) {w : Node}
    (hw : s.node.act op = some w) :
    Inv (Sleepers.become w (fun fd => wakesReadq s.node fd op) s) := by
  refine h.become (Node.act_pushes hw) ?_
  intro fd hq hn
  cases hb : op.isAside with
  | true =>
    rw [noPackets_of_fds (Node.act_aside hw hb).fds]
    exact hn
  | false =>
    cases op with
    | bh => exact noPackets_bh hw hq hn
    | files t => cases hop
    | _ => cases hb

theorem Inv.ioctl (h : Inv s) (fd : Fin canMaxUsecount) (cmd : IoctlCmd) (fault : Bool) :
    Inv (Sleepers.become (canIoctl fd cmd fault s.node).1 (fun _ => false) s) := by
  refine h.become (pushes_sendRule.canIoctl s.node fd cmd fault) ?_
  intro i _ hn
  obtain ⟨-, hinq, -⟩ := canIoctl_inq fd cmd fault s.node
  have hall : ∀ v : Node, noPackets v i =
      ((v.fds.openfd i).map FileState.inq).all fun q => q.empty := by
    intro v
    rw [noPackets, Option.all_map]
  rw [hall, hinq i, ← hall]
  exact hn

theorem Inv.openFile (h : Inv s) {fd : Fin canMaxUsecount} {t : FdTable}
    (ht : canAllocOpenfd s.node.fds = some (fd, t)) :
    Inv { s with node := { s.node with fds := t } } := by
  obtain ⟨-, rfl⟩ := canAllocOpenfd_eq ht
  apply h.files
  intro i hn
  by_cases hi : i = fd
  · subst hi
    simp only [noPackets, Function.update_self, Option.all_some]
    rfl
  · simp only [noPackets, Function.update_of_ne hi]
    exact hn

theorem Inv.release (h : Inv s) (fd : Fin canMaxUsecount) :
    Inv { s with node :=
      { s.node with fds := canReleaseOpenfd fd s.node.canNodeid s.node.fds } } := by
  apply h.files
  intro i hn
  cases hf : s.node.fds.openfd fd with
  | none =>
    have hsame : canReleaseOpenfd fd s.node.canNodeid s.node.fds = s.node.fds := by
      rw [canReleaseOpenfd, hf]
    rw [hsame]
    exact hn
  | some f =>
    rw [noPackets, canReleaseOpenfd_openfd hf]
    by_cases hi : i = fd
    · subst hi
      rw [Function.update_self]
      rfl
    · rw [Function.update_of_ne hi]
      exact hn

theorem empty_of_ringToPkt {r q : PktRing} {pkt : CanPacket} (h : ringToPkt r = some (pkt, q)) :
    r.empty = false := by
  rw [Ring.empty_eq_false_iff, Ring.toList_of_get (by decide) h]
  exact List.cons_ne_nil _ _

theorem Inv.ringToUser (h : Inv s) (p : Nat) {fd : Fin canMaxUsecount} (count got : Nat) (ok : Bool)
    {f : FileState} (hf : s.node.fds.openfd fd = some f) :
    Inv (ringToUserRound p fd count got ok f s) := by
  unfold ringToUserRound
  by_cases hlt : got < count
  · rw [if_pos hlt]
    cases hg : ringToPkt f.inq with
    | none =>
      exact h.awake_ite rfl rfl
    | some x =>
      obtain ⟨pkt, q⟩ := x
      have hfiles : Inv { s with node :=
          { s.node with fds := s.node.fds.modify fd fun f => { f with inq := q } } } := by
        apply h.files
        intro i hn
        have hi : i ≠ fd := by
          rintro rfl
          rw [noPackets, hf, Option.all_some, empty_of_ringToPkt hg] at hn
          cases hn
        simp only [noPackets, FdTable.modify, Function.update_of_ne hi]
        exact hn
      exact hfiles.awake_ite rfl rfl
  · rw [if_neg hlt]
    exact h.awake rfl

theorem Inv.userToOutq (h : Inv s) (p : Nat) (buf : List (Option CanPacket)) (i : Nat) :
    Inv (userToOutqRound p buf i s) := by
  unfold userToOutqRound
  cases buf with
  | nil =>
    exact h.awake_ite rfl rfl
  | cons x rest =>
    cases x with
    | none => exact h.awake rfl
    | some pkt =>
      have hsent : Inv (Sleepers.become (sendPkt pkt s.node).1 (fun _ => false) s) := by
        refine h.become (pushes_sendRule.sendPkt s.node pkt) ?_
        intro fd _ hn
        rw [noPackets_of_fds (sendPkt_emits pkt s.node).fds]
        exact hn
      apply hsent.awake
      split_ifs
      · rfl
      · rfl
      · rfl

theorem Inv.step (h : Inv s) {op : Op} (hok : sleepsInTime s op = true) (hs : Step s op u) :
    Inv u := by
  rw [Step, Sleepers.step] at hs
  split_ifs at hs
  cases op with
  | node op =>
    rw [act] at hs
    split_ifs at hs with hop
    obtain ⟨w, hw, rfl⟩ := Option.map_eq_some_iff.mp hs
    exact h.node (by simpa using hop) hw
  | «open» =>
    obtain ⟨⟨fd, t⟩, ht, rfl⟩ := Option.map_eq_some_iff.mp hs
    exact h.openFile ht
  | release fd =>
    obtain rfl := Option.some.inj hs
    exact h.release fd
  | ioctl fd cmd fault =>
    obtain rfl := Option.some.inj hs
    exact h.ioctl fd cmd fault
  | canRead p fd count =>
    simp only [act] at hs
    split at hs
    · obtain rfl := Option.some.inj hs
      exact h.awake_ite rfl rfl
    · cases hs
  | ringToUser p ok =>
    simp only [act] at hs
    split at hs
    · obtain ⟨f, hf, rfl⟩ := Option.map_eq_some_iff.mp hs
      exact h.ringToUser p _ _ ok hf
    · cases hs
  | canWrite p buf bytes =>
    simp only [act] at hs
    split at hs
    · obtain rfl := Option.some.inj hs
      exact h.awake_ite rfl rfl
    · cases hs
  | userToOutq p =>
    simp only [act] at hs
    split at hs
    · obtain rfl := Option.some.inj hs
      exact h.userToOutq p _ _
    · cases hs
  | sleep p =>
    -- what the caller has tested still holds
    have hw : waits s.node (s.callers p) = true := hok
    simp only [act] at hs
    split at hs
    · rename_i hc
      rw [hc] at hw
      obtain rfl := Option.some.inj hs
      exact h.setCaller fun _ => hw
    · rename_i hc
      rw [hc] at hw
      obtain rfl := Option.some.inj hs
      exact h.setCaller fun _ => hw
    · cases hs
  | signal p =>
    simp only [act] at hs
    split at hs
    · obtain rfl := Option.some.inj hs
      exact h.awake rfl
    · obtain rfl := Option.some.inj hs
      exact h.awake rfl
    · cases hs
  | resume p sigpending =>
    simp only [act] at hs
    split at hs
    · obtain rfl := Option.some.inj hs
      exact h.awake_ite rfl rfl
    · obtain rfl := Option.some.inj hs
      exact h.awake_ite rfl rfl
    · cases hs

/-- At rest or not. -/
theorem none_forgotten_of_inTime {n : Node} {tr : List (Sleepers × Op)}
    (hr : Run Step (boot n) tr u) (hok : ∀ x ∈ tr, sleepsInTime x.1 x.2 = true) :
    ∀ p, u.forgotten p = false := by
  have h : Inv u :=
    hr.invariant_of (inv_boot n) (fun _ _ _ hi ho hst => hi.step ho hst) hok
  exact h.not_forgotten

/-- A packet for this node that no object answers. -/
def strayPkt : CanPacket := { connectPkt noConsole with ext := ⟨0, .ack, 0, 0, 1, 0⟩ }

/-- A read that finds its ring empty, and a packet that comes after the process
has gone to sleep, or before. -/
def readWhile (late : Bool) : List Op :=
  [.open, .canRead 0 0 pktsize, .ringToUser 0 true] ++ (if late then [] else [.sleep 0]) ++
    [.node (.tryRecv [strayPkt]), .node .bh] ++
    (if late then [.sleep 0] else [.resume 0 false, .ringToUser 0 true, .ringToUser 0 true])

def hasReturned (retval : Int) : Caller → Bool
  | .returned r => r == retval
  | _ => false

theorem none_forgotten_early_sleep :
    ∃ tr u, Run Step (boot hosted) tr u ∧ (∀ p, u.forgotten p = false) ∧
      hasReturned 16 (u.callers 0) = true := by
  obtain ⟨tr, u, hr, -, hok, hg⟩ := exists_run_of_any (f := step) (s := boot hosted)
    sleepsInTime (readWhile false) (fun u => hasReturned 16 (u.callers 0)) (by decide +kernel)
  exact ⟨tr, u, hr, none_forgotten_of_inTime hr hok, hg⟩

theorem reader_forgotten :
    ¬ ∀ n tr u, Run Step (boot n) tr u → AtRest u → ∀ p, u.forgotten p = false := by
  intro h
  obtain ⟨tr, u, hr, -, -, hg⟩ := exists_run_of_any (f := step) (s := boot hosted)
    (fun _ _ => true) (readWhile true)
    (fun u => u.node.inq.empty && u.node.outq.empty && u.node.xmitAvail && !u.node.halted &&
      u.forgotten 0) (by decide +kernel)
  simp only [Bool.and_eq_true, Bool.not_eq_true'] at hg
  obtain ⟨⟨⟨⟨hinq, houtq⟩, hx⟩, hh⟩, hf⟩ := hg
  have hnil : ∀ r : PktRing, r.empty = true → r.toList = [] := by
    intro r he
    by_contra hne
    rw [(Ring.empty_eq_false_iff r).mpr hne] at he
    cases he
  have hrest : AtRest u := ⟨hnil _ hinq, hnil _ houtq, hx, hh⟩
  rw [h hosted tr u hr hrest 0] at hf
  cases hf

end Sleepers

end MeikoCs2
