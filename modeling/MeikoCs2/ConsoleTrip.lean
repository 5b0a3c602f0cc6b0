import MeikoCs2.ConsoleWire

/-! Console output from the kernel of one node to the terminal of a cancon on
another. One packet is under way at a time: on the wire, in the ring of the
file, or as its ACK on the way back. -/

namespace MeikoCs2

variable {P : Type}

/-- What a step does to the console of node `a`. -/
def conLog (a : Canhostname) (s : Net P) : Label P → List ConEvent
  | .printk b m => if b = a then printkLog (messageBytes m) (s.nodes a) else []
  | .ackTimeout b => if b = a then recvAckLog true (s.nodes a) else []
  | .deliver i =>
    match s.wire[i]? with
    | some m => if m.dst = a then packetLog m.pkt (s.nodes a) else []
    | none => []
  | _ => []

def conLogs (a : Canhostname) (tr : List (Net P × Label P)) : List ConEvent :=
  tr.flatMap fun x => conLog a x.1 x.2

def batches (l : List ConEvent) : List (List Byte) := (sents l).map payload

def isData (co : CanHeaderExt) (m : Msg P) : Bool :=
  decide (m.pkt.ext.type = .dat) && pertains co m

/-- What the reader of cancon writes to stdout. -/
def prints [DecidableEq P] (p : P) (s : Net P) : Label P → List (List Byte)
  | .read q =>
    match (s.procs p).fdq with
    | m :: _ =>
      if q = p ∧ m.pkt.ext.type = .dat ∧ m.pkt.ext = (s.procs p).consoleObject then [payload m.pkt]
      else []
    | [] => []
  | _ => []

def printed [DecidableEq P] (p : P) (tr : List (Net P × Label P)) : List (List Byte) :=
  tr.flatMap fun x => prints p x.1 x.2

def timeouts (a : Canhostname) (tr : List (Net P × Label P)) : Nat :=
  tr.countP fun x => match x.2 with
    | .ackTimeout b => decide (b = a)
    | _ => false

structure Attached (a : Canhostname) (p : P) (co : CanHeaderExt) (s : Net P) : Prop where
  rmt : (s.nodes a).canconRmt = co
  mine : (s.procs p).consoleObject = co

/-- The session goes on, the queues have room for what the console sends, no
other cancon takes the packets for its own, and the ACK timer expires only when
nothing of the packet is under way any more. -/
structure SessionOk (a : Canhostname) (p : P) (co : CanHeaderExt) (s : Net P) (l : Label P) :
    Prop where
  attached : Attached a p co s
  undropped : Undropped (conLog a s l)
  reader : ∀ q, l = .read q → q ≠ p → (s.procs q).consoleObject ≠ co
  recvAck : ∀ i, l ≠ .recvAck p i
  timeout : l = .ackTimeout a → (s.nodes a).canconAckPending = true ∧
    (∀ m ∈ s.wire, pertains co m = false) ∧ ∀ m ∈ (s.procs p).fdq, isData co m = false

/-- For the object of the console, only the kernel of `a` sends to its address,
and only the kernel of `a` sends from `a`. -/
def OnlyConsole (a : Canhostname) (co : CanHeaderExt) (log : List (Event P)) : Prop :=
  ∀ o, .sent o ∈ log → o.pkt.ext.object = co.object →
    (o.node = a ∨ o.pkt.ext.addr = co.addr) → o.node = a ∧ o.sender = none

/-- A console object as cancon has them. -/
structure IsConsole (co : CanHeaderExt) : Prop where
  type : co.type = .dat
  object : canValidConsobj co.object = true
  connected : canconUnconnected co = false

/-- The packet of the console that is awaited: `S` has been sent and `R` printed
so far, after `T` timeouts. -/
inductive ConTrip (co : CanHeaderExt) (T : Nat) :
    List (List Byte) → List (List Byte) → Bool → List (Msg P) → List (Msg P) → Prop where
  | idle {S R : List (List Byte)} (h : R.Sublist S) (hl : S.length ≤ R.length + T) :
      ConTrip co T S R false [] []
  | out {S R : List (List Byte)} {m : Msg P} (h : R.Sublist S) (hl : S.length ≤ R.length + T)
      (he : m.pkt.ext = co) : ConTrip co T (S ++ [payload m.pkt]) R true [m] []
  | arrived {S R : List (List Byte)} {m : Msg P} (h : R.Sublist S) (hl : S.length ≤ R.length + T)
      (he : m.pkt.ext = co) : ConTrip co T (S ++ [payload m.pkt]) R true [] [m]
  | back {S R : List (List Byte)} {m : Msg P} (h : R.Sublist S) (hl : S.length ≤ R.length + T)
      (ht : m.pkt.ext.type = .ack) : ConTrip co T S R true [m] []
  | gone {S R : List (List Byte)} (h : R.Sublist S) (hl : S.length ≤ R.length + T + 1) :
      ConTrip co T S R true [] []

/-- `W` has been written to the console so far. -/
structure ConsoleAt (a : Canhostname) (p : P) (co : CanHeaderExt) (T : Nat) (W : List Byte)
    (S R : List (List Byte)) (s : Net P) : Prop where
  text : W = S.flatten ++ (s.nodes a).canconOutbuf.toList
  own : ∀ o, .sent o ∈ s.log → o.node = a → o.sender = none → o.pkt.ext = co
  trip : ConTrip co T S R (s.nodes a).canconAckPending (s.wire.filter (pertains co))
    ((s.procs p).fdq.filter (isData co))

theorem IsConsole.object_ne {co : CanHeaderExt} (h : IsConsole co) {x : BitVec 10}
    (hx : canValidConsobj x = false) : co.object ≠ x := by
  intro he
  rw [← he, h.object] at hx
  cases hx

theorem IsConsole.replies {co : CanHeaderExt} (h : IsConsole co) {p : CanPacket}
    (hp : p.ext.object = co.object) (s : Node) : replies p s = [] := by
  have hsw : canobjSwitch p s = (s, false) := by
    have hne : ∀ x : BitVec 10, canValidConsobj x = false → p.ext.object ≠ x := fun x hx => by
      rw [hp]
      exact h.object_ne hx
    simp only [canobjSwitch]
    iterate 10 rw [if_neg (hne _ (by decide))]
  rw [MeikoCs2.replies, (canobjPacket_prints p s).acknaks, hsw]
  exact List.drop_length

theorem pertains_iff {co : CanHeaderExt} {m : Msg P} :
    pertains co m = true ↔ m.pkt.ext.object = co.object ∧ m.pkt.ext.addr = co.addr :=
  isOurAcknak_iff _ _

/-- Of what a step of the console hands to `send_pkt`, the packets of the
console are those in its log. -/
theorem ours_of_shows {co : CanHeaderExt} {s u : Node} {l : List ConEvent} {x y : Session}
    (h : Shows s l u) (h₀ : s.handed = []) (hl : Undropped l) (hs : ConSends x (sents l) y)
    (hx : { x.rmt with type := .dat } = co)
    (hk : ∀ p ∈ u.handed.map Handed.pkt, p.ext.type = .dat ∨
      (p.ext.type.isAcknak = true ∧ isOurAcknak p.ext co = false)) :
    ((u.handed.map Handed.pkt).filter fun p => isOurAcknak p.ext co) = (sents l).map (fixup s) ∧
      ∀ p ∈ u.handed.map Handed.pkt, p.ext.type.isAcknak = false → p.ext = co := by
  have hd := h.handed_dats h₀ hl
  have hext : ∀ p ∈ u.handed.map Handed.pkt, p.ext.type = .dat → p.ext = co := by
    intro p hp ht
    have hm : p ∈ (u.handed.map Handed.pkt).filter fun p => p.ext.type = .dat :=
      List.mem_filter.mpr ⟨hp, decide_eq_true ht⟩
    rw [hd] at hm
    obtain ⟨q, hq, rfl⟩ := List.mem_map.mp hm
    rw [fixup_ext, hs.ext q hq, hx]
  refine ⟨?_, fun p hp ha => ?_⟩
  · rw [← hd]
    refine List.filter_congr fun p hp => ?_
    rcases hk p hp with ht | ⟨ha, hn⟩
    · rw [hext p hp ht, (isOurAcknak_iff co co).mpr ⟨rfl, rfl⟩]
      exact (decide_eq_true (hext p hp ht ▸ ht)).symm
    · have ht : p.ext.type ≠ .dat := fun ht => by
        rw [ht] at ha
        cases ha
      rw [hn]
      exact (decide_eq_false ht).symm
  · rcases hk p hp with ht | ⟨hk, _⟩
    · exact hext p hp ht
    · rw [hk] at ha
      cases ha

namespace ConTrip

variable {co : CanHeaderExt} {T : Nat} {S R : List (List Byte)} {ws qs as bs : List (Msg P)}
  {m : Msg P} {b : Bool}

theorem sublist_sent {S R : List (List Byte)} (x : List Byte) (h : R.Sublist S)
    (hl : S.length ≤ R.length + T) :
    R.Sublist (S ++ [x]) ∧ (S ++ [x]).length ≤ R.length + T + 1 := by
  refine ⟨h.trans (List.sublist_append_left _ _), ?_⟩
  rw [List.length_append, List.length_singleton]
  omega

theorem lost (h : ConTrip co T S R true ws qs) : ConTrip (P := P) co T S R true [] [] := by
  cases h with
  | out h hl _ =>
    obtain ⟨hs, hn⟩ := sublist_sent _ h hl
    exact .gone hs hn
  | arrived h hl _ =>
    obtain ⟨hs, hn⟩ := sublist_sent _ h hl
    exact .gone hs hn
  | back h hl _ => exact .gone h (Nat.le_succ_of_le hl)
  | gone h hl => exact .gone h hl

theorem accounts (h : ConTrip co T S R b ws qs) :
    R.Sublist S ∧ S.length ≤ R.length + T + (if b then 1 else 0) := by
  cases h with
  | idle h hl => exact ⟨h, hl⟩
  | out h hl _ => exact sublist_sent _ h hl
  | arrived h hl _ => exact sublist_sent _ h hl
  | back h hl _ => exact ⟨h, Nat.le_succ_of_le hl⟩
  | gone h hl => exact ⟨h, hl⟩

theorem at_wire (h : ConTrip co T S R b ws qs) (hw : ws = as ++ m :: bs) :
    b = true ∧ as = [] ∧ bs = [] ∧ qs = [] ∧
      ((m.pkt.ext = co ∧ ConTrip co T S R true [] [m]) ∨
        (m.pkt.ext.type = .ack ∧ ConTrip (P := P) co T S R false [] [])) := by
  cases h with
  | idle _ _ => exact absurd hw.symm (by simp)
  | @out S R x h hl he =>
    obtain ⟨h₁, h₂, rfl⟩ := eq_single_append hw
    exact ⟨rfl, h₁, h₂, rfl, .inl ⟨he, .arrived h hl he⟩⟩
  | arrived _ _ _ => exact absurd hw.symm (by simp)
  | @back S R x h hl ht =>
    obtain ⟨h₁, h₂, rfl⟩ := eq_single_append hw
    exact ⟨rfl, h₁, h₂, rfl, .inr ⟨ht, .idle h hl⟩⟩
  | gone _ _ => exact absurd hw.symm (by simp)

theorem at_fdq (h : ConTrip co T S R b ws qs) (hq : qs = as ++ m :: bs) :
    b = true ∧ as = [] ∧ bs = [] ∧ ws = [] ∧ m.pkt.ext = co ∧
      ∀ x : Msg P, x.pkt.ext.type = .ack → ConTrip co T S (R ++ [payload m.pkt]) true [x] [] := by
  cases h with
  | @arrived S R x h hl he =>
    obtain ⟨h₁, h₂, rfl⟩ := eq_single_append hq
    refine ⟨rfl, h₁, h₂, rfl, he, fun y hy => .back (h.append (List.Sublist.refl _)) ?_ hy⟩
    simp only [List.length_append, List.length_singleton]
    omega
  | _ => exact absurd hq.symm (by simp)

theorem expired (h : ConTrip co T S R true [] ([] : List (Msg P))) :
    ConTrip (P := P) co (T + 1) S R false [] [] := by
  cases h with
  | gone h hl => exact .idle h hl

theorem sends {n : Node} {x y : Session} {ps : List CanPacket} {ms : List (Msg P)}
    (h : ConTrip co T S R x.pending ws qs) (hx : { x.rmt with type := .dat } = co)
    (hs : ConSends x ps y) (hm : ms.map Msg.pkt = ps.map (fixup n)) :
    ConTrip co T (S ++ ps.map payload) R y.pending (ws ++ ms) qs := by
  cases hs with
  | none _ hp =>
    rw [List.map_nil, List.map_eq_nil_iff] at hm
    rw [hm, hp, List.map_nil, List.append_nil, List.append_nil]
    exact h
  | @one _ pkt _ hx' hy he =>
    obtain ⟨m, ms', rfl, hmp, hnil⟩ := List.map_eq_cons_iff.mp hm
    rw [List.map_nil, List.map_eq_nil_iff] at hnil
    subst hnil
    have hpl : payload m.pkt = payload pkt := by rw [hmp]; rfl
    rw [hx'] at h
    rw [hy, List.map_cons, List.map_nil, ← hpl]
    cases h with
    | idle h hl => exact .out h hl (by rw [hmp, fixup_ext, he, hx])

end ConTrip

end MeikoCs2
