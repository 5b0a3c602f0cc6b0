import MeikoCs2.Discipline
import MeikoCs2.Keystrokes
import MeikoCs2.Stall

/-! From the wire to `cancon_inbuf`. The length field of a DAT bounds the loop
over its payload, and the ACK goes out before the ring is asked for room. -/

namespace MeikoCs2

def recvIndices (pkt : CanPacket) : List Nat := List.range (pkt.can.length.toNat - 4)

def consoleDats (s : Node) : NodeOp → List CanPacket
  | .bh =>
    match ringToPkt s.inq with
    | none => []
    | some (pkt, _) =>
      if isMypacket s.canNodeid pkt ∧ pkt.ext.object = 0 ∧ pkt.ext.type = .dat ∧
        canconUnconnected s.canconRmt = false then [pkt] else []
  | _ => []

def AckGiven (pkt : CanPacket) (s u : Node) : Prop :=
  { pkt.ext with type := .ack } ∈ ((acknaks u).drop (acknaks s).length).map CanPacket.ext

/-- `length - 4` bytes of the payload were read and nothing else, and all of
them were taken. -/
structure TakenWhole (pkt : CanPacket) (s u : Node) : Prop where
  lower : 4 ≤ pkt.can.length.toNat
  upper : pkt.can.length.toNat ≤ 8
  inside : ∀ i ∈ recvIndices pkt, i < 4
  appended : u.received = s.received ++ payload pkt

def InputFaithful (s : Node) (op : NodeOp) : Prop :=
  ∀ pkt ∈ consoleDats s op, ∀ u, s.step op = some u → AckGiven pkt s u → TakenWhole pkt s u

/-- The length field of a DAT for the console declares zero to four characters,
and there is room for them. -/
def InputFits (s : Node) (op : NodeOp) : Prop :=
  ∀ pkt ∈ consoleDats s op, 4 ≤ pkt.can.length.toNat ∧ pkt.can.length.toNat ≤ 8 ∧
    pkt.can.length.toNat - 4 ≤ s.canconInbuf.room

theorem mem_consoleDats {s : Node} {op : NodeOp} {pkt : CanPacket} (h : pkt ∈ consoleDats s op) :
    op = .bh ∧ ∃ q, ringToPkt s.inq = some (pkt, q) ∧ isMypacket s.canNodeid pkt = true ∧
      IsConsoleDat pkt { s with inq := q } := by
  cases op with
  | bh =>
    simp only [consoleDats] at h
    split at h
    · cases h
    · rename_i p q hg
      split_ifs at h with hp
      · obtain rfl := List.mem_singleton.mp h
        exact ⟨rfl, q, hg, hp.1, ⟨hp.2.1, hp.2.2.1, hp.2.2.2⟩⟩
      · cases h
  | _ => cases h

theorem recvChars_of_le {pkt : CanPacket} (h : pkt.can.length.toNat ≤ 8) (s : Node) :
    recvChars pkt s = payload pkt := by
  refine List.map_congr_left fun i hi => ?_
  have hi' := List.mem_range.mp hi
  rw [if_pos (by omega)]

theorem length_recvChars (pkt : CanPacket) (s : Node) :
    (recvChars pkt s).length = pkt.can.length.toNat - 4 := by
  rw [recvChars, List.length_map, List.length_range]

theorem length_payload (pkt : CanPacket) : (payload pkt).length = pkt.can.length.toNat - 4 := by
  rw [payload, List.length_map, List.length_range]

section Dispatch

variable {s u : Node} {pkt : CanPacket} {q : PktRing}

theorem received_bh (hg : ringToPkt s.inq = some (pkt, q)) (hm : isMypacket s.canNodeid pkt = true)
    (hd : IsConsoleDat pkt { s with inq := q }) (h : bhRound s = some u) :
    u.received = s.received ++ acceptedChars (recvChars pkt s) s.canconInbuf := by
  obtain ⟨p, r, hg', rfl⟩ := bhRound_eq_some h
  obtain ⟨rfl, rfl⟩ : pkt = p ∧ q = r := by simpa [hg] using hg'
  have he : (deliverPkt pkt { s with inq := q }).1.received =
      (canobjPacket pkt { s with inq := q }).1.received := by
    simp only [deliverPkt, hm, if_true]
    split_ifs <;> rfl
  rw [he, received_consoleDat hd, entering, if_pos ⟨hd.object, hd.type, hd.connected⟩]
  rfl

theorem ackGiven_bh (hg : ringToPkt s.inq = some (pkt, q)) (hm : isMypacket s.canNodeid pkt = true)
    (hd : IsConsoleDat pkt { s with inq := q }) (h : bhRound s = some u) : AckGiven pkt s u := by
  obtain ⟨p, r, hg', rfl⟩ := bhRound_eq_some h
  obtain ⟨rfl, rfl⟩ : pkt = p ∧ q = r := by simpa [hg] using hg'
  have hr := drop_acknaks_deliverPkt (s := { s with inq := q }) hm
  rw [replies_consoleDat hd] at hr
  have he : (acknaks (deliverPkt pkt { s with inq := q }).1).drop (acknaks s).length =
    [fixup { s with inq := q } (acknakPkt .ack pkt none)] := hr
  rw [AckGiven, he]
  exact List.mem_singleton_self _

theorem takenWhole_iff (hg : ringToPkt s.inq = some (pkt, q))
    (hm : isMypacket s.canNodeid pkt = true) (hd : IsConsoleDat pkt { s with inq := q })
    (h : bhRound s = some u) :
    TakenWhole pkt s u ↔ 4 ≤ pkt.can.length.toNat ∧ pkt.can.length.toNat ≤ 8 ∧
      pkt.can.length.toNat - 4 ≤ s.canconInbuf.room := by
  have hr := received_bh hg hm hd h
  constructor
  · intro ht
    refine ⟨ht.lower, ht.upper, ?_⟩
    have he := List.append_cancel_left (hr.symm.trans ht.appended)
    have hl := congrArg List.length he
    rw [length_acceptedChars, length_recvChars, length_payload] at hl
    omega
  · rintro ⟨hlo, hhi, hroom⟩
    refine ⟨hlo, hhi, fun i hi => ?_, ?_⟩
    · have hi' := List.mem_range.mp hi
      omega
    · rw [hr, acceptedChars_of_room (by rw [length_recvChars]; exact hroom), recvChars_of_le hhi]

end Dispatch

theorem inputFaithful_iff {s u : Node} {op : NodeOp} (h : s.step op = some u) :
    InputFaithful s op ↔ InputFits s op := by
  have hiff : ∀ pkt ∈ consoleDats s op,
      (AckGiven pkt s u → TakenWhole pkt s u) ↔ 4 ≤ pkt.can.length.toNat ∧
        pkt.can.length.toNat ≤ 8 ∧ pkt.can.length.toNat - 4 ≤ s.canconInbuf.room := by
    intro pkt hp
    obtain ⟨rfl, q, hg, hm, hd⟩ := mem_consoleDats hp
    have hb : bhRound s = some u := (Node.step_eq_some h).2
    rw [← takenWhole_iff hg hm hd hb]
    exact ⟨fun ht => ht (ackGiven_bh hg hm hd hb), fun ht _ => ht⟩
  constructor
  · exact fun hf pkt hp => (hiff pkt hp).mp (hf pkt hp u h)
  · intro hf pkt hp v hv
    obtain rfl := Option.some.inj (h.symm.trans hv)
    exact (hiff pkt hp).mpr (hf pkt hp)

/-! Only a DAT for the console adds to the input. -/

theorem Outgoing.entered {l : List ConEvent} (h : Outgoing l) : entered l = [] := by
  refine List.flatMap_eq_nil_iff.mpr fun e he => ?_
  have ho := h e he
  cases e with
  | received c => cases ho
  | _ => rfl

theorem entered_recvLog (cs : List Byte) (r : CharRing) :
    entered (recvLog cs r) = acceptedChars cs r := by
  induction cs generalizing r with
  | nil => rfl
  | cons c cs ih =>
    have h := ih (charToRing c r).1
    simp only [entered] at h
    simp only [entered, recvLog, acceptedChars, List.flatMap_cons, h]
    rw [charToRing, Ring.put_snd]
    cases r.full <;> rfl

theorem entered_recvDatLog (cs : List Byte) (s : Node) :
    entered (recvDatLog cs s) = acceptedChars cs s.canconInbuf := by
  have hp : ∀ s, entered (recvPushLog s) = [] := fun s => by
    unfold recvPushLog
    split
    · rfl
    · split_ifs <;> rfl
  rw [recvDatLog, entered_append, entered_recvLog, hp, List.append_nil]

theorem entered_switchLog (pkt : CanPacket) (s : Node) :
    entered (switchLog pkt s) = entering pkt s := by
  by_cases h0 : pkt.ext.object = 0
  · have he := (canobjAcknak_emits .ack pkt none s).canconInbuf
    simp only [switchLog, entering, h0]
    iterate 3 rw [if_neg (by decide)]
    simp only [if_true, true_and]
    cases hc : canconUnconnected s.canconRmt with
    | true => simp [entered]
    | false =>
      by_cases ht : pkt.ext.type = .dat
      · simp [ht, entered_recvDatLog, he]
      · simp [ht, entered]
  · rw [entering, if_neg fun h => h0 h.1]
    simp only [switchLog, h0, if_false]
    split_ifs <;> first | exact (printkLog_outgoing _ _).entered | rfl

theorem entered_bhLog (s : Node) :
    entered (bhLog s) = (consoleDats s .bh).flatMap fun pkt =>
      acceptedChars (recvChars pkt s) s.canconInbuf := by
  simp only [bhLog, consoleDats]
  cases ringToPkt s.inq with
  | none => rfl
  | some x =>
    simp only
    cases hm : isMypacket s.canNodeid x.1 with
    | false => simp [entered]
    | true =>
      have hcons : ∀ s, entered (if forConsole x.1 s then consobjLog x.1 s else []) = [] :=
        fun s => by
          split_ifs
          · exact (consobjLog_outgoing _ _).entered
          · rfl
      have hs := entered_switchLog x.1 { s with inq := x.2 }
      have hl : entered (packetLog x.1 { s with inq := x.2 }) =
          entering x.1 { s with inq := x.2 } := by
        simp only [packetLog]
        rw [List.cons_append, ← List.singleton_append, entered_append, entered_append, hs, hcons,
          List.append_nil]
        rfl
      simp only [if_true, true_and]
      rw [hl, entering]
      split_ifs
      · simp only [List.flatMap_cons, List.flatMap_nil, List.append_nil]
        rfl
      · rfl

theorem entered_consoleLog (s : Node) (op : NodeOp) :
    entered (consoleLog s op) = (consoleDats s op).flatMap fun pkt =>
      acceptedChars (recvChars pkt s) s.canconInbuf := by
  cases op with
  | bh => exact entered_bhLog s
  | ttyWrite stopped buf => exact (ttyWriteLog_outgoing _ _ _).entered
  | ttyPutChar ch => exact ((queueLog_outgoing _ _).append (sendNextLog_outgoing _)).entered
  | printk str => exact (printkLog_outgoing _ _).entered
  | ackTimeout => exact (recvAckLog_outgoing _ _).entered
  | _ => rfl

theorem InputFits.entered {s : Node} {op : NodeOp} (h : InputFits s op) :
    entered (consoleLog s op) = (consoleDats s op).flatMap payload := by
  rw [entered_consoleLog, List.flatMap_def, List.flatMap_def]
  refine congrArg List.flatten (List.map_congr_left fun pkt hp => ?_)
  obtain ⟨_, hhi, hroom⟩ := h pkt hp
  rw [acceptedChars_of_room (by rw [length_recvChars]; exact hroom), recvChars_of_le hhi]

theorem Traced.run_entered {n : Node} {tr : List (Traced × NodeOp)} {t : Traced}
    (h : Run TracedStep (.init n) tr t) (hf : ∀ x ∈ tr, InputFits x.1.node x.2) :
    entered t.log = (tr.flatMap fun x => consoleDats x.1.node x.2).flatMap payload := by
  induction h with
  | nil => rfl
  | @snoc tr t u op _ hst ih =>
    have hlast := hf (t, op) (List.mem_append_right _ (List.mem_singleton_self _))
    rw [hst.eq.2, entered_append, ih fun x hx => hf x (List.mem_append_left _ hx),
      hlast.entered, List.flatMap_append, List.flatMap_append]
    simp

/-- Console input is faithful in exactly the runs in which every DAT for the
console declares zero to four characters and finds room for them; there the
input is made of the payloads, in order. -/
theorem console_input_fidelity {n : Node} {tr : List (Traced × NodeOp)} {t : Traced}
    (h : Run TracedStep (.init n) tr t) :
    ((∀ x ∈ tr, InputFaithful x.1.node x.2) ↔ ∀ x ∈ tr, InputFits x.1.node x.2) ∧
    ((∀ x ∈ tr, InputFits x.1.node x.2) →
      entered t.log = (tr.flatMap fun x => consoleDats x.1.node x.2).flatMap payload) := by
  refine ⟨forall₂_congr fun x hx => ?_, Traced.run_entered h⟩
  obtain ⟨v, hv⟩ := h.exists_next x hx
  exact inputFaithful_iff hv.eq.1

def datOfLength (length : BitVec 4) : CanPacket :=
  ⟨0, ⟨0, 1, 1, 0, length⟩, ⟨0, .dat, 0, 0, 1, 0⟩, 0x61626364⟩

def onlyDat (pkt : CanPacket) (t : Traced) : NodeOp → Bool
  | .bh => consoleDats t.node .bh = [pkt]
  | .sendPkt p => p = pkt
  | _ => false

theorem console_input_fidelity_two :
    ∃ tr t, Run TracedStep (.init hosted) tr t ∧ entered t.log = [0x61, 0x62] ∧
      ∀ x ∈ tr, InputFaithful x.1.node x.2 := by
  obtain ⟨tr, t, hr, _, hok, hg⟩ := Traced.exists_run hosted
    (fun t op => onlyDat (datOfLength 6) t op && decide (2 ≤ t.node.canconInbuf.room))
    [.sendPkt (datOfLength 6), .bh] (fun t => entered t.log = [0x61, 0x62]) (by decide +kernel)
  refine ⟨tr, t, hr, of_decide_eq_true hg, (console_input_fidelity hr).1.mpr ?_⟩
  rintro ⟨s, op⟩ hx pkt hp
  obtain ⟨rfl, _⟩ := mem_consoleDats hp
  have ho := hok _ hx
  simp only [onlyDat, Bool.and_eq_true, decide_eq_true_eq] at ho
  rw [ho.1] at hp
  rw [List.mem_singleton.mp hp]
  exact ⟨by decide, by decide, ho.2⟩

/-- A DAT whose header declares eight characters. -/
theorem long_dat_overread :
    ∃ tr t, Run TracedStep (.init hosted) tr t ∧ ¬ ∀ x ∈ tr, InputFaithful x.1.node x.2 := by
  obtain ⟨tr, t, hr, hl, hok, _⟩ := Traced.exists_run hosted (onlyDat (datOfLength 12))
    [.sendPkt (datOfLength 12), .bh] (fun _ => true) (by decide +kernel)
  refine ⟨tr, t, hr, fun hf => ?_⟩
  obtain ⟨⟨s, op⟩, hx, rfl⟩ : ∃ x ∈ tr, x.2 = .bh := by
    have hmem : NodeOp.bh ∈ tr.map Prod.snd := by
      rw [hl]
      exact List.mem_cons_of_mem _ (List.mem_singleton_self _)
    exact List.mem_map.mp hmem
  obtain ⟨v, hv⟩ := hr.exists_next _ hx
  have ho := hok _ hx
  simp only [onlyDat, decide_eq_true_eq] at ho
  have hfit := (inputFaithful_iff hv.eq.1).mp (hf _ hx) (datOfLength 12) (by simp [ho])
  exact absurd hfit.2.1 (by decide)

end MeikoCs2
