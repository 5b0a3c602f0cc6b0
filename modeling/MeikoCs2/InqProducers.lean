import MeikoCs2.Interrupts

/-! The two producers of `inq`. The note in `can_main.c` says that a spinlock
keeps them apart, but the lock is compiled out: an interrupt that receives
while a send is inside `pkt_to_ring` writes to the slot that the send is about
to use, and both advance the head. -/

namespace MeikoCs2

/-- Whether `pkt_to_ring` has found room in `inq` and has not yet returned. -/
def Pc.inserting : Pc → Bool
  | .inStore _ _ => true
  | .inAdvance _ _ => true
  | _ => false

namespace Cpu

structure InqInv (c : Cpu) : Prop where
  queue : c.inAccepted = c.inRemoved ++ c.node.inq.toList
  room : c.pc.inserting = true → c.node.inq.full = false
  stored : ∀ pkt outstat, c.pc = .inAdvance pkt outstat → c.node.inq.buf c.node.inq.head = pkt

variable {c u : Cpu}

/-- Outside `pkt_to_ring` the packets add up, and that is all there is to it. -/
theorem InqInv.of_queue (h : c.inAccepted = c.inRemoved ++ c.node.inq.toList)
    (hp : c.pc.inserting = false) : InqInv c where
  queue := h
  room hi := by
    rw [hp] at hi
    cases hi
  stored pkt outstat hpc := by
    rw [hpc] at hp
    cases hp

theorem inqInv_queued (h : c.inAccepted = c.inRemoved ++ c.node.inq.toList) (x : Handed) :
    InqInv (queued x c) := by
  unfold Cpu.queued
  split_ifs
  · exact .of_queue h rfl
  · exact .of_queue h rfl

theorem InqInv.next (h : InqInv c) : InqInv c.next := by
  have hq := h.queue
  cases hpc : c.pc with
  | idle =>
    rw [Cpu.next, hpc]
    exact h
  | outTest pkt =>
    rw [next_outTest hpc]
    split_ifs
    · exact .of_queue hq rfl
    · exact .of_queue hq rfl
  | outStore pkt =>
    rw [next_outStore hpc]
    exact .of_queue hq rfl
  | outAdvance pkt =>
    rw [next_outAdvance hpc]
    exact .of_queue hq rfl
  | inTest pkt outstat =>
    rw [next_inTest hpc]
    split_ifs with hf
    · exact inqInv_queued hq _
    · refine ⟨hq, fun _ => by simpa using hf, fun pkt' outstat' hp => ?_⟩
      cases hp
  | inStore pkt outstat =>
    have hr := h.room (by rw [hpc]; rfl)
    rw [next_inStore hpc]
    refine ⟨?_, fun _ => hr, ?_⟩
    · simp only [Ring.toList_store]
      exact hq
    · intro pkt' outstat' hp
      cases hp
      exact Ring.buf_store pkt c.node.inq
  | inAdvance pkt outstat =>
    have hr := h.room (by rw [hpc]; rfl)
    have hl := Ring.toList_advanceHead (by decide) hr
    rw [h.stored pkt outstat hpc] at hl
    rw [next_inAdvance hpc]
    refine inqInv_queued ?_ _
    simp only [queueBh, hl, hq, List.append_assoc]
  | xmitStatus x =>
    rw [next_xmitStatus hpc]
    split_ifs
    · exact .of_queue hq rfl
    · exact .of_queue hq rfl
  | xmitTake x =>
    cases hg : ringToPkt c.node.outq with
    | none =>
      rw [next_xmitTake_none hpc hg]
      exact .of_queue hq rfl
    | some y =>
      rw [next_xmitTake_some hpc hg]
      exact .of_queue hq rfl
  | xmitCopy x pkt =>
    rw [next_xmitCopy hpc]
    exact .of_queue hq rfl
  | xmitCommand x pkt =>
    rw [next_xmitCommand hpc]
    exact .of_queue hq rfl

/-- An interrupt that lands inside `pkt_to_ring` on `inq` sends nothing of its
own, and receives fewer packets than there is room for if the slot is still to
be written, none if it has been written. -/
def inqApart (c : Cpu) : Op → Bool
  | .intr st pkts =>
    match c.pc with
    | .inStore _ _ => quiet st c.node && decide (pkts.length < c.node.inq.room)
    | .inAdvance _ _ => quiet st c.node && pkts.isEmpty
    | _ => true
  | _ => true

theorem InqInv.intr (h : InqInv c) {st : CanStatus} {pkts : List CanPacket}
    (hok : inqApart c (.intr st pkts) = true) : InqInv (c.interrupt st pkts) := by
  obtain ⟨new, ha, hq⟩ := interrupt_inq st pkts c
  have hqueue : (c.interrupt st pkts).inAccepted =
      (c.interrupt st pkts).inRemoved ++ (c.interrupt st pkts).node.inq.toList := by
    rw [ha, hq, h.queue, List.append_assoc]
    rfl
  cases hpc : c.pc with
  | inStore pkt outstat =>
    simp only [inqApart, hpc, Bool.and_eq_true, decide_eq_true_eq] at hok
    refine ⟨hqueue, ?_, ?_⟩
    · intro _
      have hlen := interrupt_inq_length hok.1 pkts
      have hroom := hok.2
      rw [Ring.room_eq] at hroom
      rw [Bool.eq_false_iff, ne_eq, Ring.full_iff_length _ (by decide)]
      rw [Ring.length_toList] at hlen ⊢
      rw [Ring.length_toList] at hlen
      omega
    · intro pkt' outstat' hp
      have hp' : c.pc = .inAdvance pkt' outstat' := hp
      rw [hpc] at hp'
      cases hp'
  | inAdvance pkt outstat =>
    simp only [inqApart, hpc, Bool.and_eq_true, List.isEmpty_iff] at hok
    obtain ⟨hquiet, rfl⟩ := hok
    have hsame := interrupt_inq_of_none hquiet
    refine ⟨hqueue, ?_, ?_⟩
    · intro hi
      rw [hsame]
      exact h.room hi
    · intro pkt' outstat' hp
      rw [hsame]
      exact h.stored pkt' outstat' hp
  | _ =>
    refine .of_queue hqueue ?_
    change c.pc.inserting = false
    rw [hpc]
    rfl

theorem InqInv.step (h : InqInv c) {op : Op} (hok : inqApart c op = true) (hst : Step c op u) :
    InqInv u := by
  unfold Step at hst
  cases op with
  | start pkt =>
    cases hpc : c.pc with
    | idle =>
      simp only [act, hpc, Option.some.injEq] at hst
      subst hst
      refine .of_queue h.queue ?_
      simp only
      split_ifs <;> rfl
    | _ => simp [act, hpc] at hst
  | step =>
    have hn : u = c.next := by
      cases hpc : c.pc <;> simp_all [act]
    rw [hn]
    exact h.next
  | intr st pkts =>
    rw [← Option.some.inj hst]
    exact h.intr hok
  | xmitDone =>
    rw [← Option.some.inj hst]
    exact ⟨h.queue, h.room, h.stored⟩
  | remove =>
    obtain ⟨x, hx, rfl⟩ := Option.map_eq_some_iff.mp hst
    have hg : Ring.get c.node.inq = some (x.1, x.2) := hx
    have hl := Ring.toList_of_get (by decide) hg
    refine ⟨?_, ?_, ?_⟩
    · simp only [h.queue, hl, List.append_assoc, List.singleton_append]
    · intro hi
      refine Ring.full_of_length_le (by decide) (h.room hi) ?_
      rw [hl, List.length_cons]
      exact Nat.le_succ _
    · intro pkt outstat hp
      obtain ⟨hb, hh⟩ := Ring.get_frame hg
      change x.2.buf x.2.head = pkt
      rw [hb, hh]
      exact h.stored pkt outstat hp
  | other n =>
    rw [← Option.some.inj hst]
    exact ⟨h.queue, h.room, h.stored⟩

theorem inqInv_boot (n : Node) (regs : TxRegs) : InqInv (boot n regs) := .of_queue rfl rfl

/-- Every packet that a removal yielded had been inserted, and with those that
removing everything would still yield, they are the packets inserted, each
once. -/
structure InqSafe (c : Cpu) : Prop where
  inserted : ∀ pkt ∈ c.inRemoved, pkt ∈ c.inAccepted
  once : (c.inRemoved ++ (takePkts c.node.inq.size c.node.inq).1).Perm c.inAccepted

theorem takePkts_all {k : Nat} {r : PktRing} (h : r.size ≤ k) : (takePkts k r).1 = r.toList := by
  induction k generalizing r with
  | zero =>
    have hn : r.toList = [] := by
      rw [← List.length_eq_zero_iff, Ring.length_toList]
      omega
    rw [hn]
    rfl
  | succ k ih =>
    unfold takePkts
    cases hg : ringToPkt r with
    | none => exact ((Ring.get_eq_none_iff r).mp hg).symm
    | some x =>
      have hl := Ring.toList_of_get (by decide) hg
      have hs : x.2.size ≤ k := by
        rw [← Ring.length_toList] at h ⊢
        rw [hl, List.length_cons] at h
        omega
      simp only
      rw [ih hs, hl]

theorem InqInv.safe (h : InqInv c) : InqSafe c where
  inserted pkt hp := by
    rw [h.queue]
    exact List.mem_append_left _ hp
  once := by
    rw [takePkts_all (Nat.le_refl _), ← h.queue]

/-- `inq` neither loses nor invents a packet in any run whose interrupts keep
apart from the `pkt_to_ring` of a send. -/
theorem inq_safe_of_apart {n : Node} {regs : TxRegs} {tr : List (Cpu × Op)}
    (h : Run Step (boot n regs) tr u) (hok : ∀ x ∈ tr, inqApart x.1 x.2 = true) : InqSafe u := by
  have hi : InqInv u :=
    h.invariant_of (inqInv_boot n regs) (fun _ _ _ hi ha hst => hi.step ha hst) hok
  exact hi.safe

def loopPkt (v : CanDat) : CanPacket := { connectPkt noConsole with dat := v }

/-- A packet sent to the own node, and one received in the middle of it. -/
def racing : List Op :=
  [.start (loopPkt 1), .step, .step, .intr .clear [loopPkt 2], .step, .remove, .remove]

/-- The interrupt comes before the slot is written. -/
def apart : List Op :=
  [.start (loopPkt 1), .step, .intr .clear [loopPkt 2], .step, .step, .remove, .remove]

def bootCpu : Cpu := boot (Node.boot 1 noConsole (.init 1) .empty) default

theorem inq_safe_received_early :
    ∃ tr u, Run Step bootCpu tr u ∧ InqSafe u ∧ u.inRemoved.length = 2 := by
  obtain ⟨tr, u, hr, -, hok, hg⟩ := exists_run_of_any (f := act) (s := bootCpu)
    inqApart apart (fun u => u.inRemoved.length == 2) (by decide +kernel)
  exact ⟨tr, u, hr, inq_safe_of_apart hr hok, by simpa using hg⟩

/-- The received packet overwrites the one being sent, and the slot behind it,
that nothing was ever written to, is removed as a packet. -/
theorem inq_yields_stale_slot :
    ¬ ∀ n regs tr u, Run Step (boot n regs) tr u → InqSafe u := by
  intro h
  obtain ⟨tr, u, hr, -, -, hg⟩ := exists_run_of_any (f := act) (s := bootCpu)
    (fun _ _ => true) racing (fun u => u.inRemoved.any fun p => decide (p ∉ u.inAccepted))
    (by decide +kernel)
  obtain ⟨p, hp, hn⟩ := List.any_eq_true.mp hg
  exact of_decide_eq_true hn ((h _ _ tr u hr).inserted p hp)

end Cpu

end MeikoCs2
