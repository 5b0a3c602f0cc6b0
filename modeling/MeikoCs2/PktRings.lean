import MeikoCs2.Node
import MeikoCs2.Spsc

/-! The packet rings between one producer and one consumer. `pkt_to_ring` and
`ring_to_pkt` are safe relative to each other with the locks compiled out. -/

namespace MeikoCs2

open Spsc

variable {s : State maxring CanPacket}

/-- A `pkt_to_ring` whose steps nothing comes between. -/
theorem pktToRing_path {pkt : CanPacket} (hp : s.producer = .idle)
    (h : (pktToRing pkt s.ring).2 = true) :
    Path Step s [.testFull pkt, .store, .advanceHead]
      { s with ring := (pktToRing pkt s.ring).1, accepted := s.accepted ++ [pkt] } := by
  have hf : s.ring.full = false := by
    rw [pktToRing, Ring.put_snd] at h
    simpa using h
  refine .cons (.testFull pkt hp hf) (.cons (.store pkt rfl) (.single ?_))
  rw [pktToRing, Ring.put_eq hf]
  have hlast := @Step.advanceHead _ _
    { s with ring := s.ring.store pkt, producer := .stored pkt } pkt rfl
  rw [← hp] at hlast
  exact hlast

theorem ringToPkt_path {pkt : CanPacket} {q : PktRing} (hc : s.consumer = .idle)
    (h : ringToPkt s.ring = some (pkt, q)) :
    Path Step s [.testEmpty, .load, .advanceTail]
      { s with ring := q, returned := s.returned ++ [pkt] } := by
  have he : s.ring.empty = false := by
    rw [Bool.eq_false_iff]
    intro he
    simp [ringToPkt, Ring.get, he] at h
  rw [ringToPkt, Ring.get_eq he] at h
  obtain ⟨rfl, rfl⟩ := Prod.mk.inj (Option.some.inj h)
  refine .cons (.testEmpty hc he) (.cons (.load rfl) (.single ?_))
  have hlast := @Step.advanceTail _ _
    { s with consumer := .loaded (s.ring.buf s.ring.tail) } _ rfl
  rw [← hc] at hlast
  exact hlast

/-- What the two sides can rely on after the steps `tr` have led to `u`. The
packet accepted as number `j` is stored into slot `j`, up to the wrap. -/
structure LockFree (tr : List (State maxring CanPacket × Lbl CanPacket))
    (u : State maxring CanPacket) : Prop where
  inOrder : u.accepted = u.returned ++ u.ring.toList
  unread : ∀ j (h : j < u.accepted.length), u.returned.length ≤ j →
    u.ring.buf (Ring.after 0 j) = u.accepted[j]
  refusedIn : ∀ t pkt, (t, Lbl.refusedIn pkt) ∈ tr →
    t.accepted.length = t.returned.length + 1023
  refusedOut : ∀ t, (t, Lbl.refusedOut) ∈ tr → t.accepted = t.returned

theorem pkt_rings_lock_free {buf : Fin maxring → CanPacket}
    {tr : List (State maxring CanPacket × Lbl CanPacket)} {u : State maxring CanPacket}
    (h : Run Step (.init buf) tr u) : LockFree tr u := by
  have hn : 1 < maxring := by decide
  obtain ⟨hall, hu⟩ := h.invariant_all (inv_init buf) fun _ _ _ hi hst => hi.step hn hst
  have hnext := h.exists_next
  refine ⟨hu.queue, fun j hj hr => hu.unread hr hj, ?_, ?_⟩
  · intro t pkt ht
    obtain ⟨v, hv⟩ := hnext _ ht
    cases hv with
    | refusedIn _ _ hf => exact (hall _ ht).length_of_full hn hf
  · intro t ht
    obtain ⟨v, hv⟩ := hnext _ ht
    cases hv with
    | refusedOut _ he => exact (hall _ ht).returned_of_empty he

/-- A removal is refused while an insert is half done, and goes through once
the head has advanced, in the middle of the next insert. -/
theorem pkt_rings_lock_free_overlap :
    ∃ tr u, Run Step (.init fun _ => default) tr u ∧ LockFree tr u ∧
      u.returned = [(default : CanPacket)] := by
  let ring₀ : PktRing := ⟨fun _ => default, 0, 0⟩
  let ring₁ : PktRing := (ring₀.store default).advanceHead
  have h : Run Step (.init fun _ => default) _
      (⟨ring₁.advanceTail, .tested default, .idle, [default], [default]⟩ :
        State maxring CanPacket) :=
    .snoc (.snoc (.snoc (.snoc (.snoc (.snoc (.snoc (.snoc .nil
      (.testFull default rfl rfl)) (.store default rfl)) (.refusedOut rfl rfl))
      (.advanceHead default rfl)) (.testEmpty rfl rfl)) (.testFull default rfl rfl))
      (.load rfl)) (.advanceTail default rfl)
  exact ⟨_, _, h, pkt_rings_lock_free h, rfl⟩

end MeikoCs2
