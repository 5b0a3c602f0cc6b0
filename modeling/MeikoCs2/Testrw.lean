import MeikoCs2.Replies

/-! The TESTRW object of a node: a word that a write replaces and that is
answered with the value before. No other packet reaches it. -/

namespace MeikoCs2

@[simp] theorem canobjAcknak_objVal (t : CanType) (p : CanPacket) (d : Option CanDat) (s : Node) :
    (canobjAcknak t p d s).objVal = s.objVal := (canobjAcknak_emits t p d s).objVal

@[simp] theorem printk_objVal (m : String) (s : Node) : (printk m s).objVal = s.objVal :=
  (printk_prints m s).objVal

@[simp] theorem canttyRecvDat_objVal (cs : List Byte) (s : Node) :
    (canttyRecvDat cs s).objVal = s.objVal := by
  unfold canttyRecvDat canttyRecvPush
  split
  · rfl
  · split_ifs <;> rfl

theorem canobjReadProp_objVal (path : ObpPath) (table : List (List Char)) (p : CanPacket)
    (s : Node) : (canobjReadProp path table p s).1.objVal = s.objVal := by
  unfold canobjReadProp
  split
  · split <;> simp
  · rfl

def IsTestWrite (p : CanPacket) : Prop := p.ext.object = Canobj.testrw ∧ p.ext.type = .wo

instance (p : CanPacket) : Decidable (IsTestWrite p) := inferInstanceAs (Decidable (_ ∧ _))

theorem canobjSwitch_testrw {p : CanPacket} (h : p.ext.object = Canobj.testrw) (s : Node) :
    canobjSwitch p s = canobjTestrw p s := by
  simp only [canobjSwitch, h, if_true]
  iterate 4 rw [if_neg (by decide)]

theorem canobjSwitch_objVal (p : CanPacket) (s : Node) :
    (canobjSwitch p s).1.objVal = if IsTestWrite p then p.dat else s.objVal := by
  by_cases ho : p.ext.object = Canobj.testrw
  · rw [canobjSwitch_testrw ho, canobjTestrw]
    split
    · rename_i ht
      rw [if_pos ⟨ho, ht⟩]
    · rename_i ht
      have hn : ¬ IsTestWrite p := fun h => by rw [h.2] at ht; cases ht
      rw [if_neg hn, canobjAcknak_objVal]
    · rename_i ht _
      have hn : ¬ IsTestWrite p := fun h => ht h.2
      rw [if_neg hn]
  · have hn : ¬ IsTestWrite p := fun h => ho h.1
    rw [if_neg hn]
    refine canobjSwitch_cases p s (P := fun r => r.1.objVal = s.objVal)
      ?_ ?_ ?_ ?_ ?_ ?_ ?_ ?_ ?_ ?_ ?_
    · intro _
      unfold canobjConnect
      split
      · simp
      · split_ifs <;> simp [canobjCanconHostSet, canconSetcon]
      · rfl
    · intro _
      unfold canobjDisconnect
      split
      · split_ifs <;> simp [canobjCanconHostSet, canconSetcon, canttyHangup]
      · rfl
    · intro _
      unfold canobjBreak
      split <;> simp
    · intro _
      unfold canobjForceDisconn
      split
      · simp only
        split_ifs <;> simp
      · rfl
    · intro h
      exact absurd h ho
    · intro _
      unfold canobjHeartbeat
      split <;> simp
    · intro _
      exact canobjReadProp_objVal _ _ p s
    · intro _
      unfold canobjResetIo
      split
      · split <;> simp
      · split <;> simp
      · rfl
    · intro _
      exact canobjReadProp_objVal _ _ p s
    · intro _
      unfold canobjDat
      split_ifs
      · rfl
      · split <;> simp
    · intro _ _ _ _
      rfl

/-- Only a write to TESTRW changes the value of the object. -/
theorem canobjPacket_objVal (p : CanPacket) (s : Node) :
    (canobjPacket p s).1.objVal = if IsTestWrite p then p.dat else s.objVal := by
  rw [(canobjPacket_prints p s).objVal, canobjSwitch_objVal]

theorem replies_testWrite {p : CanPacket} (h : IsTestWrite p) (s : Node) :
    replies p s = [fixup s (acknakPkt .ack p (some s.objVal))] := by
  have ha : p.ext.type.ackable = true := by rw [h.2]; rfl
  rw [replies, canobjPacket_of_ackable ha, canobjSwitch_testrw h.1, canobjTestrw, h.2]
  change List.drop _ (acknaks (canobjAcknak .ack p (some s.objVal) s)) = _
  rw [acknaks_canobjAcknak rfl, List.drop_left]

theorem replies_of_acknak {p : CanPacket} (h : p.ext.type.isAcknak = true) (s : Node) :
    replies p s = [] := by
  refine List.eq_nil_iff_forall_not_mem.mpr fun r hr => ?_
  have ha := CanType.isAcknak_of_ackable (isReply_of_mem_replies hr).1
  rw [h] at ha
  cases ha

end MeikoCs2
