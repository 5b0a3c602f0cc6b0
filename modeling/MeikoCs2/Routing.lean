import MeikoCs2.Network
import MeikoCs2.SentLog

/-! Where a packet goes first. The user library and the kernel console both
send straight to a target of their own module and through the H8 of the module
to any other, and the kernel loops back what carries its own node number. All
three unpack five bits of fields that have six. -/

namespace MeikoCs2

theorem and_0x1f (x : BitVec 32) : x &&& 0x1f#32 = (x.setWidth 5).setWidth 32 := by
  apply BitVec.eq_of_toNat_eq
  have ha : x.toNat &&& 31 = x.toNat % 32 := Nat.and_two_pow_sub_one_eq_mod x.toNat 5
  change x.toNat &&& 31 = _
  simp only [BitVec.toNat_setWidth]
  omega

theorem unpackNode_packNodeid (a : Canhostname) :
    unpackNode (packNodeid a) = (a.node.setWidth 5).setWidth 32 := by
  rw [unpackNode, and_0x1f]
  congr 1
  apply BitVec.eq_of_getLsbD_eq
  intro i hi
  simp [packNodeid, hi, show i < 6 by omega]

theorem unpackModule_packNodeid (a : Canhostname) :
    unpackModule (packNodeid a) = (a.module.setWidth 5).setWidth 32 := by
  rw [unpackModule, and_0x1f]
  congr 1
  apply BitVec.eq_of_getLsbD_eq
  intro i hi
  simp [packNodeid, hi, show 6 + i < 32 by omega, show 6 + i < 12 by omega]

theorem unpackCluster_packNodeid (a : Canhostname) :
    unpackCluster (packNodeid a) = (a.cluster.setWidth 5).setWidth 32 := by
  rw [unpackCluster, and_0x1f]
  congr 1
  apply BitVec.eq_of_getLsbD_eq
  intro i hi
  have hn : a.node.getLsbD (12 + i) = false := BitVec.getLsbD_of_ge _ _ (by omega)
  have hm : a.module.getLsbD (12 + i - 6) = false := BitVec.getLsbD_of_ge _ _ (by omega)
  simp [packNodeid, hi, hn, hm, show 12 + i < 32 by omega]

def SameModule (a b : Canhostname) : Prop := a.cluster = b.cluster ∧ a.module = b.module

instance (a b : Canhostname) : Decidable (SameModule a b) := inferInstanceAs (Decidable (_ ∧ _))

/-- The first hop that a packet from `a` to `b` should take. The node of `b`
has six bits and the field of the CAN header five. -/
def Routed (a b : Canhostname) (dest : BitVec 5) : Prop :=
  if SameModule a b then dest.setWidth 6 = b.node else dest = canModuleH8

/-- Who may receive a packet for `b` from itself. -/
def OwnRoute (a b : Canhostname) : Prop := b = a ∨ ¬ SameModule a b ∧ a.node = 0x1d

/-- Routing from `a` to `b`, over every packet the user library or the kernel
console of `a` sends there. -/
structure Routes (a b : Canhostname) : Prop where
  send : ∀ stack ext dat len, ext.addr = b →
    Routed a b (canSendPkt (packNodeid a) stack ext dat len).can.dest
  console : ∀ s h stack ext dat len, s.canNodeid = packNodeid a → s.canconRmt.addr = b →
    ext.addr = b → (canconSendNext s).handed = s.handed ++ [h] →
    h.pkt.can.dest = (canSendPkt (packNodeid a) stack ext dat len).can.dest
  loopback : ∀ pkt stack ext dat len, ext.addr = b →
    pkt.can.dest = (canSendPkt (packNodeid a) stack ext dat len).can.dest →
    isMypacket (packNodeid a) pkt = true → OwnRoute a b

/-- The destination all senders compute. -/
def firstHop (a b : Canhostname) : BitVec 5 :=
  if b.module.toNat = a.module.toNat % 32 ∧ b.cluster.toNat = a.cluster.toNat % 32 then
    b.node.setWidth 5
  else canModuleH8

theorem low5_eq_iff (x y : BitVec 6) :
    (x.setWidth 5).setWidth 32 = y.setWidth 32 ↔ y.toNat = x.toNat % 32 := by
  have hx := x.isLt
  have hy := y.isLt
  rw [BitVec.toNat_eq]
  simp only [BitVec.toNat_setWidth]
  omega

theorem canSendPkt_dest {b : Canhostname} {ext : CanHeaderExt} (h : ext.addr = b)
    (a : Canhostname) (stack : CanPacket) (dat : Option CanDat) (len : Nat) :
    (canSendPkt (packNodeid a) stack ext dat len).can.dest = firstHop a b := by
  subst h
  refine if_congr ?_ rfl rfl
  rw [unpackModule_packNodeid, unpackCluster_packNodeid, low5_eq_iff, low5_eq_iff]
  rfl

theorem consolePkt_dest {a b : Canhostname} {s : Node} (hs : s.canNodeid = packNodeid a)
    (h : s.canconRmt.addr = b) (chars : List Byte) :
    (consolePkt s chars).can.dest = firstHop a b := by
  subst h
  have hl : isLocal s.canNodeid s.canconRmt = true ↔
      s.canconRmt.module.toNat = a.module.toNat % 32 ∧
        s.canconRmt.cluster.toNat = a.cluster.toNat % 32 := by
    rw [← low5_eq_iff, ← low5_eq_iff, isLocal, hs, unpackCluster_packNodeid,
      unpackModule_packNodeid]
    simp only [Bool.and_eq_true, beq_iff_eq]
    tauto
  exact if_congr hl rfl rfl

/-- A console packet is handed over as it was built, apart from its source and
its time stamp. -/
theorem canconSendNext_handed {s : Node} {h : Handed}
    (hh : (canconSendNext s).handed = s.handed ++ [h]) :
    ∃ chars, h.pkt.can.dest = (consolePkt s chars).can.dest := by
  have hne : s.handed ≠ s.handed ++ [h] := by simp
  unfold canconSendNext at hh
  by_cases hu : canconUnconnected s.canconRmt = true
  · rw [if_pos hu] at hh
    exact absurd hh hne
  rw [if_neg hu] at hh
  by_cases ha : s.canconAckPending = true
  · rw [if_pos ha] at hh
    exact absurd hh hne
  rw [if_neg ha] at hh
  simp only at hh
  by_cases hc : (takeChars 4 s.canconOutbuf).1.isEmpty = true
  · rw [if_pos hc] at hh
    exact absurd hh hne
  rw [if_neg hc] at hh
  obtain ⟨i, o, hs, -⟩ := sendPktNoOutFixup_handed
    (outgoingFixup s.canNodeid (consolePkt s (takeChars 4 s.canconOutbuf).1))
    { s with canconOutbuf := (takeChars 4 s.canconOutbuf).2 }
  have hsend : (sendPkt (consolePkt s (takeChars 4 s.canconOutbuf).1)
      { s with canconOutbuf := (takeChars 4 s.canconOutbuf).2 }).1.handed = s.handed ++ [h] := by
    rw [← hh]
    split_ifs <;> rfl
  have he := List.append_cancel_left (hsend.symm.trans hs)
  refine ⟨(takeChars 4 s.canconOutbuf).1, ?_⟩
  rw [List.singleton_inj.mp he]
  rfl

/-- The pairs of addresses that five bits tell apart well enough. Within a
module, the target has a node number below 32, the module and its cluster have
such numbers too, and the sender is not the one whose number the target's
wraps to. Across modules, the sender is not the node that only looks like the
H8, and the target's module not the one that only looks like the sender's. -/
def WellAddressed (a b : Canhostname) : Prop :=
  if SameModule a b then
    b.node.toNat < 32 ∧ (a.cluster.toNat < 32 ∧ a.module.toNat < 32 ∨ b.node = 0x1d) ∧
      a.node.toNat ≠ b.node.toNat + 32
  else
    a.node ≠ 0x3d ∧
      (b.module.toNat = a.module.toNat % 32 → b.cluster.toNat = a.cluster.toNat % 32 →
        b.node.toNat % 32 = 0x1d)

theorem isMypacket_iff (a : Canhostname) (pkt : CanPacket) :
    isMypacket (packNodeid a) pkt = true ↔ pkt.can.dest.toNat = a.node.toNat % 32 := by
  have hd := pkt.can.dest.isLt
  rw [isMypacket, unpackNode_packNodeid, beq_iff_eq, BitVec.toNat_eq]
  simp only [BitVec.toNat_setWidth]
  omega

/-- Routing over the first hop alone. -/
theorem routes_iff_firstHop (a b : Canhostname) :
    Routes a b ↔ Routed a b (firstHop a b) ∧
      ((firstHop a b).toNat = a.node.toNat % 32 → OwnRoute a b) := by
  have hext : (⟨0, .dat, b.cluster, b.module, b.node, 0⟩ : CanHeaderExt).addr = b := rfl
  constructor
  · intro h
    have hs := h.send default _ none 0 hext
    have hl := h.loopback _ default _ none 0 hext rfl
    rw [isMypacket_iff, canSendPkt_dest hext] at hl
    rw [canSendPkt_dest hext] at hs
    exact ⟨hs, hl⟩
  · rintro ⟨hr, hl⟩
    refine ⟨?_, ?_, ?_⟩
    · intro stack ext dat len he
      rw [canSendPkt_dest he]
      exact hr
    · intro s h stack ext dat len hs hb he hh
      obtain ⟨chars, hd⟩ := canconSendNext_handed hh
      rw [canSendPkt_dest he, hd, consolePkt_dest hs hb]
    · intro pkt stack ext dat len he hd hm
      rw [isMypacket_iff, hd, canSendPkt_dest he] at hm
      exact hl hm

theorem routed_iff_of_same {a b : Canhostname} (h : SameModule a b) (dest : BitVec 5) :
    Routed a b dest ↔ dest.toNat = b.node.toNat := by
  have hd := dest.isLt
  rw [Routed, if_pos h, BitVec.toNat_eq]
  simp only [BitVec.toNat_setWidth]
  omega

theorem routed_iff_of_other {a b : Canhostname} (h : ¬ SameModule a b) (dest : BitVec 5) :
    Routed a b dest ↔ dest.toNat = 0x1d := by
  rw [Routed, if_neg h, BitVec.toNat_eq]
  rfl

theorem firstHop_toNat (a b : Canhostname) :
    (firstHop a b).toNat =
      if b.module.toNat = a.module.toNat % 32 ∧ b.cluster.toNat = a.cluster.toNat % 32 then
        b.node.toNat % 32
      else 0x1d := by
  unfold firstHop
  split_ifs
  · simp
  · rfl

theorem ownRoute_iff_of_same {a b : Canhostname} (h : SameModule a b) :
    OwnRoute a b ↔ a.node.toNat = b.node.toNat := by
  obtain ⟨hc, hm⟩ := h
  rw [OwnRoute, ← BitVec.toNat_eq]
  constructor
  · rintro (rfl | ⟨hn, _⟩)
    · rfl
    · exact absurd ⟨hc, hm⟩ hn
  · intro hn
    refine .inl ?_
    cases a
    cases b
    simp_all

theorem ownRoute_iff_of_other {a b : Canhostname} (h : ¬ SameModule a b) :
    OwnRoute a b ↔ a.node.toNat = 0x1d := by
  have hne : b ≠ a := by
    rintro rfl
    exact h ⟨rfl, rfl⟩
  rw [OwnRoute, BitVec.toNat_eq]
  simp [hne, h]

/-- All senders route a packet right exactly between well-addressed nodes. -/
theorem routes_iff (a b : Canhostname) : Routes a b ↔ WellAddressed a b := by
  have ha := a.node.isLt
  have hb := b.node.isLt
  rw [routes_iff_firstHop, firstHop_toNat, WellAddressed]
  by_cases hs : SameModule a b
  · have hc : b.cluster.toNat = a.cluster.toNat := by rw [hs.1]
    have hm : b.module.toNat = a.module.toNat := by rw [hs.2]
    rw [if_pos hs, routed_iff_of_same hs, ownRoute_iff_of_same hs, firstHop_toNat, hc, hm,
      BitVec.toNat_eq]
    change _ ↔ _ ∧ (_ ∨ b.node.toNat = 29) ∧ _
    split_ifs <;> omega
  · rw [if_neg hs, routed_iff_of_other hs, ownRoute_iff_of_other hs, firstHop_toNat, ne_eq,
      BitVec.toNat_eq]
    change _ ↔ ¬ a.node.toNat = 61 ∧ _
    split_ifs with hl
    · have h₁ := hl.1
      have h₂ := hl.2
      omega
    · by_cases hm : b.module.toNat = a.module.toNat % 32
      · have hc : ¬ b.cluster.toNat = a.cluster.toNat % 32 := fun hc => hl ⟨hm, hc⟩
        omega
      · omega

/-- Two nodes of module 20 (hex): the second is reached through the H8. -/
theorem module_20_misrouted : ¬ ∀ a b, Routes a b := by
  intro h
  have hr := ((routes_iff_firstHop _ _).mp (h ⟨0, 0x20, 0⟩ ⟨0, 0x20, 4⟩)).1
  exact absurd ((routed_iff_of_same (by decide) _).mp hr) (by decide)

end MeikoCs2
