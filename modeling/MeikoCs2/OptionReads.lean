import MeikoCs2.ResetIo

/-! A RO to AUTOBOOT, RESET_IO or BOOT_DEV reads a PROM string and answers with
its place in a table. The search says -1 for a string that the table lacks, but
the handlers look at another status, that of the read. -/

namespace MeikoCs2

inductive OptionObject where
  | autoboot | resetIo | bootDev
  deriving DecidableEq, Repr

namespace OptionObject

def object : OptionObject → BitVec 10
  | .autoboot => Canobj.autoboot
  | .resetIo => Canobj.resetIo
  | .bootDev => Canobj.bootDev

def path : OptionObject → ObpPath
  | .autoboot => .autoBoot
  | .resetIo => .inputDevice
  | .bootDev => .bootDevice

def table : OptionObject → List (List Char)
  | .autoboot => obpBoolean
  | .resetIo => obpInputDeviceValues
  | .bootDev => obpBootDeviceValues

/-- What a handler answers with when the property cannot be read. Only the
variable of RESET_IO is initialised. -/
def unread (s : Node) : OptionObject → CanDat
  | .autoboot => s.stack.dat
  | .resetIo => 0
  | .bootDev => s.stack.dat

theorem length_table_le (o : OptionObject) : o.table.length ≤ 10 := by
  cases o <;> decide

end OptionObject

structure IsOptionRead (o : OptionObject) (p : CanPacket) : Prop where
  object : p.ext.object = o.object
  type : p.ext.type = .ro

def optionString (o : OptionObject) (m : Prom) : Option (List Char) :=
  obpGetprop o.path obpMaxstr m

theorem obpGetcan_option (o : OptionObject) (m : Prom) :
    obpGetcan o.path o.table m =
      (optionString o m).map fun str => BitVec.ofInt 32 (obpStrtonum str o.table) := rfl

theorem canobjSwitch_autoboot {p : CanPacket} (h : p.ext.object = Canobj.autoboot) (s : Node) :
    canobjSwitch p s = canobjAutoboot p s := by
  simp only [canobjSwitch, h, if_true]
  iterate 6 rw [if_neg (by decide)]

theorem canobjSwitch_bootDev {p : CanPacket} (h : p.ext.object = Canobj.bootDev) (s : Node) :
    canobjSwitch p s = canobjBootDev p s := by
  simp only [canobjSwitch, h, if_true]
  iterate 8 rw [if_neg (by decide)]

section Read

variable {o : OptionObject} {p : CanPacket}

theorem canobjReadProp_ro (h : p.ext.type = .ro) (path : ObpPath) (table : List (List Char))
    (s : Node) :
    (canobjReadProp path table p s).1 =
      match obpGetcan path table s.prom with
      | none => canobjAcknak .nak p (some s.stack.dat) s
      | some val => canobjAcknak .ack p (some val) s := by
  unfold canobjReadProp
  rw [h]
  cases obpGetcan path table s.prom <;> rfl

theorem canobjPacket_optionRead (h : IsOptionRead o p) (s : Node) :
    (canobjPacket p s).1 =
      match optionString o s.prom with
      | none => canobjAcknak .nak p (some (o.unread s)) s
      | some str => canobjAcknak .ack p (some (BitVec.ofInt 32 (obpStrtonum str o.table))) s := by
  have ha : p.ext.type.ackable = true := by
    rw [h.type]
    rfl
  rw [canobjPacket_of_ackable ha]
  cases o with
  | autoboot =>
    have hg : obpGetcan .autoBoot obpBoolean s.prom = (optionString .autoboot s.prom).map _ :=
      obpGetcan_option .autoboot s.prom
    rw [canobjSwitch_autoboot h.object, canobjAutoboot, canobjReadProp_ro h.type, hg]
    cases optionString .autoboot s.prom <;> rfl
  | resetIo =>
    have hg : obpGetcan .inputDevice obpInputDeviceValues s.prom = (optionString .resetIo s.prom).map _ :=
      obpGetcan_option .resetIo s.prom
    rw [canobjSwitch_resetIo h.object, canobjResetIo, h.type]
    simp only [hg]
    cases optionString .resetIo s.prom <;> rfl
  | bootDev =>
    have hg : obpGetcan .bootDevice obpBootDeviceValues s.prom = (optionString .bootDev s.prom).map _ :=
      obpGetcan_option .bootDev s.prom
    rw [canobjSwitch_bootDev h.object, canobjBootDev, canobjReadProp_ro h.type, hg]
    cases optionString .bootDev s.prom <;> rfl

theorem replies_unread (h : IsOptionRead o p) {s : Node} (hs : optionString o s.prom = none) :
    replies p s = [fixup s (acknakPkt .nak p (some (o.unread s)))] := by
  rw [replies, canobjPacket_optionRead h, hs, acknaks_canobjAcknak rfl]
  exact List.drop_left

theorem replies_read (h : IsOptionRead o p) {s : Node} {str : List Char}
    (hs : optionString o s.prom = some str) :
    replies p s =
      [fixup s (acknakPkt .ack p (some (BitVec.ofInt 32 (obpStrtonum str o.table))))] := by
  rw [replies, canobjPacket_optionRead h, hs, acknaks_canobjAcknak rfl]
  exact List.drop_left

end Read

/-- The entry of a table that the encoded value of a string names: the string
itself, or none, since the encoded -1 lies behind every table. -/
theorem getElem?_obpStrtonum {table : List (List Char)} (ht : table.length ≤ 2 ^ 31)
    (str : List Char) :
    table[(BitVec.ofInt 32 (obpStrtonum str table)).toNat]? =
      if str ∈ table then some str else none := by
  rw [← obpNumtostr_toInt ht, obpNumtostr_obpStrtonum ht]

/-- An ACK carries the place of the string in the table, and there is a NAK if
the string cannot be read or the table lacks it. -/
structure DecodesTruly (o : OptionObject) (p : CanPacket) (s : Node) : Prop where
  acked : ∀ r ∈ replies p s, r.ext.type = .ack →
    ∃ str, optionString o s.prom = some str ∧ o.table[r.dat.toNat]? = some str
  naked : (∀ str, optionString o s.prom = some str → str ∉ o.table) → Naked p s

/-- A read decodes truly exactly when its string, if there is one, is in the
table. -/
theorem decodesTruly_iff {o : OptionObject} {p : CanPacket} (h : IsOptionRead o p) (s : Node) :
    DecodesTruly o p s ↔ ∀ str, optionString o s.prom = some str → str ∈ o.table := by
  have ht : o.table.length ≤ 2 ^ 31 := Nat.le_trans o.length_table_le (by decide)
  cases hs : optionString o s.prom with
  | none =>
    have hr := replies_unread h hs
    refine iff_of_true ⟨?_, fun _ => ?_⟩ (by simp)
    · intro r hmem hack
      rw [hr, List.mem_singleton] at hmem
      rw [hmem] at hack
      cases hack
    · exact ⟨_, by rw [hr]; exact List.mem_singleton_self _, rfl⟩
  | some str =>
    have hr := replies_read h hs
    have hentry := getElem?_obpStrtonum ht str
    constructor
    · intro hd str' he
      obtain rfl := Option.some.inj he
      obtain ⟨str', hs', he'⟩ := hd.acked _ (by rw [hr]; exact List.mem_singleton_self _) rfl
      obtain rfl : str = str' := Option.some.inj (hs.symm.trans hs')
      by_contra hm
      rw [if_neg hm] at hentry
      exact absurd (hentry.symm.trans he') (by simp)
    · intro hm
      have hmem := hm str rfl
      refine ⟨?_, fun hno => absurd hmem (hno str hs)⟩
      intro r hrm _
      rw [hr, List.mem_singleton] at hrm
      rw [if_pos hmem] at hentry
      exact ⟨str, hs, by rw [hrm]; exact hentry⟩

theorem replies_unlisted {o : OptionObject} {p : CanPacket} (h : IsOptionRead o p) {s : Node}
    {str : List Char} (hs : optionString o s.prom = some str) (hm : str ∉ o.table) :
    replies p s = [fixup s (acknakPkt .ack p (some 0xffffffff))] := by
  rw [replies_read h hs, obpStrtonum, if_neg hm]
  rfl

def promWith (path : ObpPath) (str : String) : Prom where
  value := Function.update (fun _ => none) path (some str.toList)
  writeOk _ := true
  writes := 0

def optionPkt (o : OptionObject) : CanPacket :=
  { connectPkt noConsole with ext := ⟨0, .ro, 0, 0, 0, o.object⟩ }

theorem decodesTruly_disk :
    DecodesTruly .bootDev (optionPkt .bootDev)
      (Node.boot 1 noConsole (.init 1) (promWith .bootDevice "disk")) := by
  refine (decodesTruly_iff ⟨rfl, rfl⟩ _).mpr ?_
  intro str hs
  obtain rfl : "disk".toList = str := Option.some.inj hs
  decide

/-- A list of two boot devices is not in the table, and the read of it is
acknowledged. -/
theorem two_boot_devices_acked :
    ¬ ∀ o p s, IsOptionRead o p → DecodesTruly o p s := by
  intro h
  have hd := h .bootDev (optionPkt .bootDev)
    (Node.boot 1 noConsole (.init 1) (promWith .bootDevice "disk net")) ⟨rfl, rfl⟩
  have hs : optionString .bootDev (Node.boot 1 noConsole (.init 1)
      (promWith .bootDevice "disk net")).prom = some "disk net".toList := rfl
  have hm : "disk net".toList ∉ OptionObject.bootDev.table := by decide
  obtain ⟨r, hr, hn⟩ := hd.naked fun str he => by
    obtain rfl := Option.some.inj (hs.symm.trans he)
    exact hm
  rw [replies_unlisted ⟨rfl, rfl⟩ hs hm, List.mem_singleton] at hr
  rw [hr] at hn
  cases hn

end MeikoCs2
