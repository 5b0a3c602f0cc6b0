import MeikoCs2.ConsoleStream

/-! Who answers whom. A dispatch answers a request at most once and a reply
never, so the nodes of a network cannot keep each other busy with replies. -/

namespace MeikoCs2

/-- The replies `rs` given to `p` by one dispatch: at most one, to a request
only, sent back under the header of the request. Without data of its own a
reply keeps the payload and declares none of it. -/
structure Disciplined (p : CanPacket) (rs : List CanPacket) : Prop where
  atMostOne : rs.length ≤ 1
  request : rs ≠ [] → p.ext.type = .ro ∨ p.ext.type = .wo ∨ p.ext.type = .dat
  isAcknak : ∀ r ∈ rs, r.ext.type = .ack ∨ r.ext.type = .nak
  dest : ∀ r ∈ rs, r.can.dest = p.can.src
  ext : ∀ r ∈ rs, r.ext = { p.ext with type := r.ext.type }
  data : ∀ r ∈ rs, ∃ d : Option CanDat,
    r.can.length = (if d.isSome then 8 else 4) ∧ r.dat = d.getD p.dat

theorem CanType.ackable_iff (t : CanType) : t.ackable = true ↔ t = .ro ∨ t = .wo ∨ t = .dat := by
  cases t <;> simp [CanType.ackable]

theorem CanType.isAcknak_iff (t : CanType) : t.isAcknak = true ↔ t = .ack ∨ t = .nak := by
  cases t <;> simp [CanType.isAcknak]

theorem replies_disciplined (p : CanPacket) (s : Node) : Disciplined p (replies p s) := by
  have hreply : ∀ r ∈ replies p s, IsReply s p r := fun r => isReply_of_mem_replies
  refine ⟨replies_length_le p s, fun hne => ?_, fun r hr => ?_, fun r hr => ?_, fun r hr => ?_,
    fun r hr => ?_⟩
  · obtain ⟨r, hr⟩ := List.exists_mem_of_ne_nil _ hne
    exact (CanType.ackable_iff _).mp (hreply r hr).1
  · obtain ⟨_, t, d, ht, rfl⟩ := hreply r hr
    exact (CanType.isAcknak_iff _).mp ht
  · obtain ⟨_, t, d, _, rfl⟩ := hreply r hr
    rfl
  · obtain ⟨_, t, d, _, rfl⟩ := hreply r hr
    rfl
  · obtain ⟨_, t, d, _, rfl⟩ := hreply r hr
    exact ⟨d, rfl, rfl⟩

structure Dispatched where
  pkt : CanPacket
  sent : List CanPacket

def dispatches (s : Node) : NodeOp → List Dispatched
  | .bh =>
    match ringToPkt s.inq with
    | none => []
    | some (pkt, q) =>
      let u := (deliverPkt pkt { s with inq := q }).1
      if isMypacket s.canNodeid pkt then [⟨pkt, (acknaks u).drop (acknaks s).length⟩] else []
  | _ => []

theorem drop_acknaks_deliverPkt {pkt : CanPacket} {s : Node}
    (h : isMypacket s.canNodeid pkt = true) :
    (acknaks (deliverPkt pkt s).1).drop (acknaks s).length = replies pkt s := by
  have he : acknaks (deliverPkt pkt s).1 = acknaks (canobjPacket pkt s).1 := by
    simp only [deliverPkt, h, if_true]
    split_ifs <;> rfl
  rw [he, acknaks_canobjPacket, List.drop_left]

theorem dispatches_disciplined {s : Node} {op : NodeOp} {x : Dispatched}
    (hx : x ∈ dispatches s op) : Disciplined x.pkt x.sent := by
  cases op with
  | bh =>
    simp only [dispatches] at hx
    split at hx
    · cases hx
    · rename_i pkt q _
      split_ifs at hx with hm
      · rw [List.mem_singleton.mp hx]
        have hd := replies_disciplined pkt { s with inq := q }
        rwa [← drop_acknaks_deliverPkt (s := { s with inq := q }) hm] at hd
      · cases hx
  | _ => cases hx

structure Fleet (ι : Type) where
  nodes : ι → Node
  log : List Dispatched

variable {ι : Type} [DecidableEq ι]

/-- One event on one node. What a chip receives is arbitrary, so that the nodes
may be joined by any wire, and other machines may be on it. -/
def Fleet.step (f : Fleet ι) (x : ι × NodeOp) : Option (Fleet ι) :=
  ((f.nodes x.1).step x.2).map fun u =>
    ⟨Function.update f.nodes x.1 u, f.log ++ dispatches (f.nodes x.1) x.2⟩

def FleetStep (f : Fleet ι) (x : ι × NodeOp) (g : Fleet ι) : Prop := f.step x = some g

theorem Fleet.run_disciplined {nodes : ι → Node} {tr : List (Fleet ι × ι × NodeOp)} {f : Fleet ι}
    (h : Run FleetStep ⟨nodes, []⟩ tr f) : ∀ x ∈ f.log, Disciplined x.pkt x.sent := by
  apply h.invariant
  · intro x hx
    cases hx
  · intro f x g hf hst y hy
    obtain ⟨u, _, rfl⟩ := Option.map_eq_some_iff.mp hst
    rcases List.mem_append.mp hy with hy | hy
    · exact hf y hy
    · exact dispatches_disciplined hy

theorem length_sent_le {log : List Dispatched} (h : ∀ x ∈ log, Disciplined x.pkt x.sent) :
    (log.flatMap Dispatched.sent).length ≤ log.countP fun x => x.pkt.ext.type.ackable := by
  induction log with
  | nil => simp
  | cons x log ih =>
    have hx := h x List.mem_cons_self
    have hle := ih fun y hy => h y (List.mem_cons_of_mem _ hy)
    rw [List.flatMap_cons, List.length_append, List.countP_cons]
    cases hs : x.sent with
    | nil =>
      rw [List.length_nil]
      omega
    | cons r rs =>
      have hlen := hx.atMostOne
      have ha : x.pkt.ext.type.ackable = true :=
        (CanType.ackable_iff _).mpr (hx.request (by rw [hs]; exact List.cons_ne_nil _ _))
      rw [hs] at hlen
      rw [if_pos ha]
      omega

/-- The reply discipline of a dispatch, in every state, and of a network: the
dispatchers never send more replies than they dispatched requests. -/
theorem reply_discipline {nodes : ι → Node} {tr : List (Fleet ι × ι × NodeOp)} {f : Fleet ι}
    (h : Run FleetStep ⟨nodes, []⟩ tr f) :
    (∀ s p, Disciplined p (replies p s)) ∧ (∀ x ∈ f.log, Disciplined x.pkt x.sent) ∧
      (f.log.flatMap Dispatched.sent).length ≤
        f.log.countP fun x => x.pkt.ext.type.ackable := by
  have hd := Fleet.run_disciplined h
  exact ⟨fun s p => replies_disciplined p s, hd, length_sent_le hd⟩

/-- Node 2 disconnects the console of node 1, whose reply it receives. -/
theorem reply_discipline_disconn :
    ∃ (tr : List (Fleet Bool × Bool × NodeOp)) (f : Fleet Bool),
      Run FleetStep ⟨fun b => if b then canInit hosted else canInit (.withHost 2 noConsole), []⟩
        tr f ∧
      f.log.length = 2 ∧ (f.log.flatMap Dispatched.sent).length = 1 ∧
      (f.log.flatMap Dispatched.sent).length ≤ f.log.countP fun x => x.pkt.ext.type.ackable := by
  obtain ⟨tr, f, hr, _, _, hg⟩ := exists_run_of_any (f := Fleet.step)
    (s := ⟨fun b => if b then canInit hosted else canInit (.withHost 2 noConsole), []⟩)
    (fun _ _ => true)
    [(true, .tryRecv [⟨0, ⟨0, 1, 2, 0, 8⟩, ⟨0, .wo, 0, 0, 1, Canobj.consoleDisconn⟩, 0⟩]),
      (true, .bh),
      (false, .tryRecv [⟨0, ⟨0, 2, 1, 0, 4⟩, ⟨0, .ack, 0, 0, 1, Canobj.consoleDisconn⟩, 0⟩]),
      (false, .bh)]
    (fun f => f.log.length == 2 && (f.log.flatMap Dispatched.sent).length == 1)
    (by decide +kernel)
  simp only [Bool.and_eq_true, beq_iff_eq] at hg
  exact ⟨tr, f, hr, hg.1, hg.2, (reply_discipline hr).2.2⟩

end MeikoCs2
