import MeikoCs2.Ownership

/-! A WO to RESET_IO changes two PROM properties, one write after the other,
and takes the first write back when the second fails. Both writes go through
the table of the input devices, whose entry 0 is not an output device, and the
old value survives only as a table index. -/

namespace MeikoCs2

abbrev obpOutputDeviceValues : List (List Char) :=
  ["screen", "can", "ttya", "ttyb"].map String.toList

theorem obpNumtostr_toInt {table : List (List Char)} (ht : table.length ≤ 2 ^ 31)
    (v : BitVec 32) : obpNumtostr v.toInt table = table[v.toNat]? := by
  have hv := v.isLt
  unfold obpNumtostr
  by_cases hs : v.toNat < 2 ^ 31
  · have hi : v.toInt = v.toNat := by
      rw [BitVec.toInt_eq_toNat_cond, if_pos (by omega)]
    rw [hi]
    split_ifs with h
    · rfl
    · rw [List.getElem?_eq_none (by omega)]
  · have hi : v.toInt < 0 := by
      rw [BitVec.toInt_eq_toNat_cond, if_neg (by omega)]
      omega
    rw [if_neg (by omega), List.getElem?_eq_none (by omega)]

/-- The old value, encoded into a word and decoded again, is the old string
only if the table has it. -/
theorem obpNumtostr_obpStrtonum {table : List (List Char)} (ht : table.length ≤ 2 ^ 31)
    (str : List Char) :
    obpNumtostr (BitVec.ofInt 32 (obpStrtonum str table)).toInt table =
      if str ∈ table then some str else none := by
  rw [obpNumtostr_toInt ht]
  unfold obpStrtonum
  split_ifs with h
  · have hl := List.idxOf_lt_length_iff.mpr h
    rw [BitVec.ofInt_natCast, BitVec.toNat_ofNat, Nat.mod_eq_of_lt (by omega)]
    rw [List.getElem?_eq_getElem hl, List.getElem_idxOf]
  · rw [List.getElem?_eq_none]
    have hm : (BitVec.ofInt 32 (-1)).toNat = 2 ^ 32 - 1 := by decide
    rw [hm]
    omega

def Prom.takes (p : Prom) (path : ObpPath) : Bool :=
  (p.value path).isSome && p.writeOk p.writes

theorem obpSetprop_snd (path : ObpPath) (str : List Char) (p : Prom) :
    (obpSetprop path str p).2 = p.takes path := by
  unfold obpSetprop Prom.takes
  cases p.value path with
  | none => rfl
  | some _ => cases p.writeOk p.writes <;> rfl

theorem obpSetprop_value (path : ObpPath) (str : List Char) (p : Prom) :
    (obpSetprop path str p).1.value =
      if p.takes path then Function.update p.value path (some str) else p.value := by
  unfold obpSetprop Prom.takes
  cases p.value path with
  | none => rfl
  | some _ => cases p.writeOk p.writes <;> rfl

theorem obpSetprop_writeOk (path : ObpPath) (str : List Char) (p : Prom) :
    (obpSetprop path str p).1.writeOk = p.writeOk := by
  unfold obpSetprop
  cases p.value path with
  | none => rfl
  | some _ => cases p.writeOk p.writes <;> rfl

theorem obpSetprop_writes (path : ObpPath) (str : List Char) (p : Prom) :
    (obpSetprop path str p).1.writes =
      if (p.value path).isSome then p.writes + 1 else p.writes := by
  unfold obpSetprop
  cases p.value path with
  | none => rfl
  | some _ => cases p.writeOk p.writes <;> rfl

/-- What a WO of `v` leaves in the PROM, with the type of the answer. -/
def resetIo (v : BitVec 32) (p : Prom) : Prom × CanType :=
  match obpGetcan .inputDevice obpInputDeviceValues p with
  | none => (p, .nak)
  | some oldval => resetIoWrite v oldval p

def IsResetIo (p : CanPacket) : Prop := p.ext.object = Canobj.resetIo ∧ p.ext.type = .wo

theorem canobjSwitch_resetIo {p : CanPacket} (h : p.ext.object = Canobj.resetIo) (s : Node) :
    canobjSwitch p s = canobjResetIo p s := by
  simp only [canobjSwitch, h, if_true]
  iterate 7 rw [if_neg (by decide)]

theorem canobjPacket_resetIo {p : CanPacket} (h : IsResetIo p) (s : Node) :
    ∃ d, (canobjPacket p s).1 =
      canobjAcknak (resetIo p.dat s.prom).2 p (some d) { s with prom := (resetIo p.dat s.prom).1 } := by
  have ha : p.ext.type.ackable = true := by
    rw [h.2]
    rfl
  rw [canobjPacket_of_ackable ha, canobjSwitch_resetIo h.1, canobjResetIo, h.2, resetIo]
  cases obpGetcan .inputDevice obpInputDeviceValues s.prom with
  | none => exact ⟨0, rfl⟩
  | some oldval => exact ⟨oldval, rfl⟩

theorem resetIo_isAcknak (v : BitVec 32) (p : Prom) : (resetIo v p).2.isAcknak = true := by
  unfold resetIo
  split
  · rfl
  · exact resetIoWrite_isAcknak _ _ _

theorem resetIo_prom {p : CanPacket} (h : IsResetIo p) (s : Node) :
    (canobjPacket p s).1.prom = (resetIo p.dat s.prom).1 := by
  obtain ⟨d, hd⟩ := canobjPacket_resetIo h s
  rw [hd, (canobjAcknak_emits _ _ _ _).prom]

theorem replies_resetIo {p : CanPacket} (h : IsResetIo p) (s : Node) :
    ∃ d, replies p s = [fixup s (acknakPkt (resetIo p.dat s.prom).2 p (some d))] := by
  obtain ⟨d, hd⟩ := canobjPacket_resetIo h s
  refine ⟨d, ?_⟩
  rw [replies, hd, acknaks_canobjAcknak (resetIo_isAcknak _ _)]
  exact List.drop_left

theorem acked_resetIo_iff {p : CanPacket} (h : IsResetIo p) (s : Node) :
    Acked p s ↔ (resetIo p.dat s.prom).2 = .ack := by
  obtain ⟨d, hd⟩ := replies_resetIo h s
  simp [Acked, hd, acknakPkt]

theorem naked_resetIo_iff {p : CanPacket} (h : IsResetIo p) (s : Node) :
    Naked p s ↔ (resetIo p.dat s.prom).2 = .nak := by
  obtain ⟨d, hd⟩ := replies_resetIo h s
  simp [Naked, hd, acknakPkt]

structure TookBoth (v : BitVec 32) (m : Prom) : Prop where
  input : ∃ str, obpInputDeviceValues[v.toNat]? = some str ∧ m.value .inputDevice = some str
  output : ∃ str, obpOutputDeviceValues[v.toNat]? = some str ∧ m.value .outputDevice = some str

structure KeptBoth (m m' : Prom) : Prop where
  input : m'.value .inputDevice = m.value .inputDevice
  output : m'.value .outputDevice = m.value .outputDevice

/-- The property of one WO: it took effect on both properties, or on none. -/
def AllOrNothing (p : CanPacket) (s : Node) : Prop :=
  Acked p s ∧ TookBoth p.dat (canobjPacket p s).1.prom ∨
    Naked p s ∧ KeptBoth s.prom (canobjPacket p s).1.prom

/-- The second write reaches the PROM only if there is an output device to
write to, so the write that takes the first one back is the second or the third. -/
def rollbackWrite (m : Prom) : Nat :=
  if (m.value .outputDevice).isSome then m.writes + 2 else m.writes + 1

/-- The requests that are torn: the first write goes through, and then either
the second does as well, with entry 0 of the wrong table, or it does not and
the first cannot be taken back. -/
def Torn (v : BitVec 32) (m : Prom) : Prop :=
  ∃ old new, obpGetprop .inputDevice obpMaxstr m = some old ∧
    obpInputDeviceValues[v.toNat]? = some new ∧ m.writeOk m.writes = true ∧
    if (m.value .outputDevice).isSome && m.writeOk (m.writes + 1) then v = 0
    else old ≠ new ∧
      (old ∉ obpInputDeviceValues ∨ m.writeOk (rollbackWrite m) = false)

theorem device_tables_agree {v : BitVec 32} {new : List Char}
    (h : obpInputDeviceValues[v.toNat]? = some new) :
    obpOutputDeviceValues[v.toNat]? = some new ↔ v ≠ 0 := by
  have hl : v.toNat < 4 := (List.getElem?_eq_some_iff.mp h).1
  have hall : ∀ k < 4, obpOutputDeviceValues[k]? = obpInputDeviceValues[k]? ↔ k ≠ 0 := by decide
  have h0 : v = 0 ↔ v.toNat = 0 := by
    rw [BitVec.toNat_eq]
    rfl
  rw [← h, hall _ hl, ne_eq, ne_eq, h0]

theorem obpSetcan_eq {v : BitVec 32} {table : List (List Char)} (ht : table.length ≤ 2 ^ 31)
    {new : List Char} (h : table[v.toNat]? = some new) (path : ObpPath) (m : Prom) :
    obpSetcan path table v.toInt m = obpSetprop path new m := by
  rw [obpSetcan, obpNumtostr_toInt ht, h]

theorem obpSetcan_obpGetcan {table : List (List Char)} (ht : table.length ≤ 2 ^ 31)
    (path : ObpPath) (str : List Char) (m : Prom) :
    obpSetcan path table (BitVec.ofInt 32 (obpStrtonum str table)).toInt m =
      if str ∈ table then obpSetprop path str m else (m, false) := by
  rw [obpSetcan, obpNumtostr_obpStrtonum ht]
  split_ifs <;> rfl

section Outcomes

variable {v : BitVec 32} {m : Prom} {old new : List Char}

theorem resetIo_unreadable (h : obpGetprop .inputDevice obpMaxstr m = none) :
    resetIo v m = (m, .nak) := by
  simp [resetIo, obpGetcan, h]

theorem resetIo_unlisted (h : obpInputDeviceValues[v.toNat]? = none) :
    resetIo v m = (m, .nak) := by
  have hs : obpSetcan .inputDevice obpInputDeviceValues v.toInt m = (m, false) := by
    rw [obpSetcan, obpNumtostr_toInt (by decide), h]
  unfold resetIo
  split
  · rfl
  · rw [resetIoWrite, hs]
    rfl

theorem value_of_obpGetprop {path : ObpPath} {size : Nat}
    (h : obpGetprop path size m = some old) : m.value path = some old := by
  rw [obpGetprop, Option.filter_eq_some_iff] at h
  exact h.1

/-- The PROM after the first write. -/
def inputSet (new : List Char) (m : Prom) : Prom := (obpSetprop .inputDevice new m).1

theorem resetIo_listed (hg : obpGetprop .inputDevice obpMaxstr m = some old)
    (hn : obpInputDeviceValues[v.toNat]? = some new) :
    resetIo v m =
      if !m.writeOk m.writes then (inputSet new m, .nak)
      else if !(inputSet new m).takes .outputDevice then
        ((if old ∈ obpInputDeviceValues then
            obpSetprop .inputDevice old (obpSetprop .outputDevice new (inputSet new m)).1
          else ((obpSetprop .outputDevice new (inputSet new m)).1, false)).1, .nak)
      else ((obpSetprop .outputDevice new (inputSet new m)).1, .ack) := by
  have ht : m.takes .inputDevice = m.writeOk m.writes := by
    simp [Prom.takes, value_of_obpGetprop hg]
  have hl : obpInputDeviceValues.length ≤ 2 ^ 31 := by decide
  simp only [resetIo, obpGetcan, hg, Option.map_some, resetIoWrite]
  rw [obpSetcan_eq hl hn .inputDevice m, obpSetcan_eq hl hn, obpSetcan_obpGetcan hl,
    obpSetprop_snd, obpSetprop_snd, ht]
  rfl

theorem inputSet_value (hg : obpGetprop .inputDevice obpMaxstr m = some old) :
    (inputSet new m).value =
      if m.writeOk m.writes then Function.update m.value .inputDevice (some new)
      else m.value := by
  rw [inputSet, obpSetprop_value, Prom.takes, value_of_obpGetprop hg]
  rfl

theorem inputSet_takes (hg : obpGetprop .inputDevice obpMaxstr m = some old) :
    (inputSet new m).takes .outputDevice =
      ((m.value .outputDevice).isSome && m.writeOk (m.writes + 1)) := by
  have hv : (inputSet new m).value .outputDevice = m.value .outputDevice := by
    rw [inputSet_value hg]
    split_ifs
    · exact Function.update_of_ne (by decide) _ _
    · rfl
  have hw : (inputSet new m).writes = m.writes + 1 := by
    rw [inputSet, obpSetprop_writes, value_of_obpGetprop hg]
    rfl
  rw [Prom.takes, hv, hw, inputSet, obpSetprop_writeOk]

/-- The PROM after a second write that failed. Nothing of it changed, and the
next write is the one that takes the first back. -/
theorem outputRefused (hg : obpGetprop .inputDevice obpMaxstr m = some old)
    (hw : m.writeOk m.writes = true)
    (ho : (inputSet new m).takes .outputDevice = false) :
    (obpSetprop .outputDevice new (inputSet new m)).1.value =
        Function.update m.value .inputDevice (some new) ∧
      (obpSetprop .outputDevice new (inputSet new m)).1.takes .inputDevice =
        m.writeOk (rollbackWrite m) := by
  have hv := @inputSet_value m old new hg
  rw [if_pos hw] at hv
  have hval : (obpSetprop .outputDevice new (inputSet new m)).1.value =
      Function.update m.value .inputDevice (some new) := by
    rw [obpSetprop_value, ho, if_neg (by decide), hv]
  have hout : (inputSet new m).value .outputDevice = m.value .outputDevice := by
    rw [hv]
    exact Function.update_of_ne (by decide) _ _
  have hone : (inputSet new m).writes = m.writes + 1 := by
    rw [inputSet, obpSetprop_writes, value_of_obpGetprop hg]
    rfl
  have hwrites : (obpSetprop .outputDevice new (inputSet new m)).1.writes = rollbackWrite m := by
    rw [obpSetprop_writes, hout, hone, rollbackWrite]
  refine ⟨hval, ?_⟩
  rw [Prom.takes, hval, hwrites, obpSetprop_writeOk, inputSet, obpSetprop_writeOk,
    Function.update_self]
  rfl

theorem resetIo_keptBoth_of_refused (hg : obpGetprop .inputDevice obpMaxstr m = some old)
    (hn : obpInputDeviceValues[v.toNat]? = some new) (hw : m.writeOk m.writes = false) :
    (resetIo v m).2 = .nak ∧ KeptBoth m (resetIo v m).1 := by
  have hv := @inputSet_value m old new hg
  rw [hw, if_neg (by decide)] at hv
  rw [resetIo_listed hg hn, hw]
  exact ⟨rfl, congrFun hv _, congrFun hv _⟩

theorem resetIo_both (hg : obpGetprop .inputDevice obpMaxstr m = some old)
    (hn : obpInputDeviceValues[v.toNat]? = some new) (hw : m.writeOk m.writes = true)
    (ho : (inputSet new m).takes .outputDevice = true) :
    (resetIo v m).2 = .ack ∧ (resetIo v m).1.value .inputDevice = some new ∧
      (resetIo v m).1.value .outputDevice = some new := by
  rw [resetIo_listed hg hn, hw, ho]
  refine ⟨rfl, ?_, ?_⟩
  · change (obpSetprop .outputDevice new (inputSet new m)).1.value .inputDevice = some new
    rw [obpSetprop_value, if_pos ho, Function.update_of_ne (by decide), inputSet_value hg,
      if_pos hw, Function.update_self]
  · change (obpSetprop .outputDevice new (inputSet new m)).1.value .outputDevice = some new
    rw [obpSetprop_value, if_pos ho, Function.update_self]

theorem resetIo_back (hg : obpGetprop .inputDevice obpMaxstr m = some old)
    (hn : obpInputDeviceValues[v.toNat]? = some new) (hw : m.writeOk m.writes = true)
    (ho : (inputSet new m).takes .outputDevice = false) :
    (resetIo v m).2 = .nak ∧
      (resetIo v m).1.value .inputDevice =
        (if old ∈ obpInputDeviceValues ∧ m.writeOk (rollbackWrite m) = true then some old
         else some new) ∧
      (resetIo v m).1.value .outputDevice = m.value .outputDevice := by
  obtain ⟨hval, htakes⟩ := outputRefused hg hw ho
  rw [resetIo_listed hg hn, hw, ho]
  by_cases hm : old ∈ obpInputDeviceValues
  · simp only [hm, if_true, true_and, Bool.not_true, Bool.false_eq_true, if_false, Bool.not_false,
      obpSetprop_value .inputDevice, htakes, hval]
    split_ifs with hr
    · exact ⟨Function.update_self .., by rw [Function.update_of_ne (by decide),
        Function.update_of_ne (by decide)]⟩
    · exact ⟨Function.update_self .., Function.update_of_ne (by decide) _ _⟩
  · simp only [hm, if_false, false_and, Bool.not_true, Bool.false_eq_true, Bool.not_false, if_true,
      hval]
    exact ⟨trivial, Function.update_self .., Function.update_of_ne (by decide) _ _⟩

theorem KeptBoth.refl (m : Prom) : KeptBoth m m := ⟨rfl, rfl⟩

theorem not_torn_iff (v : BitVec 32) (m : Prom) :
    ((resetIo v m).2 = .ack ∧ TookBoth v (resetIo v m).1 ∨
      (resetIo v m).2 = .nak ∧ KeptBoth m (resetIo v m).1) ↔ ¬ Torn v m := by
  cases hg : obpGetprop .inputDevice obpMaxstr m with
  | none =>
    rw [resetIo_unreadable hg]
    have ht : ¬ Torn v m := by
      rintro ⟨old, new, h, _⟩
      rw [hg] at h
      cases h
    exact iff_of_true (.inr ⟨rfl, .refl m⟩) ht
  | some old =>
  cases hn : obpInputDeviceValues[v.toNat]? with
  | none =>
    rw [resetIo_unlisted hn]
    have ht : ¬ Torn v m := by
      rintro ⟨old, new, _, h, _⟩
      rw [hn] at h
      cases h
    exact iff_of_true (.inr ⟨rfl, .refl m⟩) ht
  | some new =>
  have htorn : Torn v m ↔ m.writeOk m.writes = true ∧
      if (inputSet new m).takes .outputDevice then v = 0
      else old ≠ new ∧ (old ∉ obpInputDeviceValues ∨ m.writeOk (rollbackWrite m) = false) := by
    rw [inputSet_takes hg]
    constructor
    · rintro ⟨old', new', hg', hn', h⟩
      obtain rfl : old = old' := Option.some.inj (hg.symm.trans hg')
      obtain rfl : new = new' := Option.some.inj (hn.symm.trans hn')
      exact h
    · exact fun h => ⟨old, new, hg, hn, h⟩
  rw [htorn]
  cases hw : m.writeOk m.writes with
  | false => exact iff_of_true (.inr (resetIo_keptBoth_of_refused hg hn hw)) (by simp)
  | true =>
  cases ho : (inputSet new m).takes .outputDevice with
  | true =>
    obtain ⟨hack, hin, hout⟩ := resetIo_both hg hn hw ho
    have htook : TookBoth v (resetIo v m).1 ↔ v ≠ 0 := by
      rw [← device_tables_agree hn]
      constructor
      · intro h
        obtain ⟨str, hs, hs'⟩ := h.output
        rw [hs, ← hs', hout]
      · exact fun h => ⟨⟨new, hn, hin⟩, ⟨new, h, hout⟩⟩
    simp [hack, htook]
  | false =>
    obtain ⟨hnak, hin, hout⟩ := resetIo_back hg hn hw ho
    have hkept : KeptBoth m (resetIo v m).1 ↔
        (old ∈ obpInputDeviceValues ∧ m.writeOk (rollbackWrite m) = true) ∨ old = new := by
      constructor
      · intro h
        have hi := h.input
        rw [hin, value_of_obpGetprop hg] at hi
        by_cases hr : old ∈ obpInputDeviceValues ∧ m.writeOk (rollbackWrite m) = true
        · exact .inl hr
        · rw [if_neg hr] at hi
          exact .inr (Option.some.inj hi).symm
      · intro h
        refine ⟨?_, hout⟩
        rw [hin, value_of_obpGetprop hg]
        rcases h with hr | rfl
        · rw [if_pos hr]
        · rw [ite_self]
    simp only [hnak, hkept]
    simp only [reduceCtorEq, false_and, false_or, true_and, Bool.false_eq_true, if_false]
    grind

end Outcomes

/-- A WO to RESET_IO is all-or-nothing exactly when it is not torn. -/
theorem allOrNothing_iff {p : CanPacket} (h : IsResetIo p) (s : Node) :
    AllOrNothing p s ↔ ¬ Torn p.dat s.prom := by
  rw [AllOrNothing, acked_resetIo_iff h, naked_resetIo_iff h, resetIo_prom h]
  exact not_torn_iff p.dat s.prom

/-- A PROM with both devices on the CAN console that takes every write. -/
def canProm : Prom where
  value
    | .inputDevice => some "can".toList
    | .outputDevice => some "can".toList
    | _ => none
  writeOk _ := true
  writes := 0

def resetIoPkt (v : BitVec 32) : CanPacket :=
  { connectPkt noConsole with ext := ⟨0, .wo, 0, 0, 0, Canobj.resetIo⟩, dat := v }

theorem allOrNothing_ttya :
    AllOrNothing (resetIoPkt 2) (Node.boot 1 noConsole (.init 1) canProm) := by
  refine (allOrNothing_iff ⟨rfl, rfl⟩ _).mpr ?_
  rintro ⟨old, new, _, _, _, h⟩
  exact absurd (show (2 : BitVec 32) = 0 from h) (by decide)

/-- Entry 0 of the input table is not an output device: the output device
becomes the keyboard, and the request is acknowledged. -/
theorem keyboard_for_output :
    ¬ ∀ p s, IsResetIo p → AllOrNothing p s := by
  intro h
  have hk := h (resetIoPkt 0) (Node.boot 1 noConsole (.init 1) canProm) ⟨rfl, rfl⟩
  rcases hk with ⟨_, ht⟩ | ⟨hn, _⟩
  · obtain ⟨str, hs, hs'⟩ := ht.output
    rw [resetIo_prom ⟨rfl, rfl⟩] at hs'
    have hb : (resetIo 0 canProm).1.value .outputDevice = some "keyboard".toList := by decide
    rw [show str = "screen".toList from (Option.some.inj hs).symm] at hs'
    exact absurd (hb.symm.trans hs') (by decide)
  · rw [naked_resetIo_iff ⟨rfl, rfl⟩] at hn
    exact absurd hn (by decide)

end MeikoCs2
