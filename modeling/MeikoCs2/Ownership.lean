import Mathlib.Data.List.Induction
import MeikoCs2.Replies
import MeikoCs2.OpenFd

/-! Who owns the console of a node. The dispatcher moves `cancon_rmt` only by
an accepted connect or disconnect; the test that decides acceptance looks at
the cluster and the module of the recorded console. -/

namespace MeikoCs2

def IsConnect (p : CanPacket) : Prop :=
  p.ext.object = Canobj.consoleConnect ∧ p.ext.type = .wo

def IsDisconn (p : CanPacket) : Prop :=
  p.ext.object = Canobj.consoleDisconn ∧ p.ext.type = .wo

instance (p : CanPacket) : Decidable (IsConnect p) := inferInstanceAs (Decidable (_ ∧ _))

instance (p : CanPacket) : Decidable (IsDisconn p) := inferInstanceAs (Decidable (_ ∧ _))

def dropConsole (rmt : CanHeaderExt) : CanHeaderExt :=
  { rmt with cluster := 0x3f, module := 0x3f, node := 0x3f, object := 0x3f }

theorem canconUnconnected_dropConsole (x : CanHeaderExt) :
    canconUnconnected (dropConsole x) = true := rfl

/-- The ownership automaton: how the recorded console follows the packets. -/
def nextRmt (p : CanPacket) (rmt : CanHeaderExt) : CanHeaderExt :=
  if IsConnect p then
    if canconUnconnected rmt then datExt p.dat else rmt
  else if IsDisconn p then
    if canconUnconnected rmt then rmt else dropConsole rmt
  else rmt

@[simp] theorem canobjAcknak_rmt (t : CanType) (p : CanPacket) (d : Option CanDat) (s : Node) :
    (canobjAcknak t p d s).canconRmt = s.canconRmt := (canobjAcknak_emits t p d s).canconRmt

@[simp] theorem printk_rmt (m : String) (s : Node) : (printk m s).canconRmt = s.canconRmt :=
  (printk_prints m s).canconRmt

@[simp] theorem canttyRecvDat_rmt (cs : List Byte) (s : Node) :
    (canttyRecvDat cs s).canconRmt = s.canconRmt := by
  unfold canttyRecvDat canttyRecvPush
  split
  · rfl
  · split_ifs <;> rfl

theorem canobjConnect_rmt {p : CanPacket} (h : p.ext.object = Canobj.consoleConnect) (s : Node) :
    (canobjConnect p s).1.canconRmt = nextRmt p s.canconRmt := by
  have hd : ¬ IsDisconn p := fun hd => by rw [hd.1] at h; exact absurd h (by decide)
  unfold canobjConnect
  split
  · rename_i ht
    simp [nextRmt, hd, IsConnect, ht]
  · rename_i ht
    simp only [nextRmt, IsConnect, h, ht, and_self, if_true]
    cases hu : canconUnconnected s.canconRmt with
    | true => simp [canobjCanconHostSet, canconSetcon]
    | false => simp
  · rename_i ht
    have hc : ¬ IsConnect p := fun hc => ht hc.2
    simp [nextRmt, hc, hd]

theorem canobjDisconnect_rmt {p : CanPacket} (h : p.ext.object = Canobj.consoleDisconn)
    (s : Node) : (canobjDisconnect p s).1.canconRmt = nextRmt p s.canconRmt := by
  have hc : ¬ IsConnect p := fun hc => by rw [hc.1] at h; exact absurd h (by decide)
  unfold canobjDisconnect
  split
  · rename_i ht
    simp only [nextRmt, hc, IsDisconn, h, ht, and_self, if_true, if_false]
    cases hu : canconUnconnected s.canconRmt with
    | true => simp
    | false => simp [canobjCanconHostSet, canconSetcon, canttyHangup, dropConsole]
  · rename_i ht
    have hd : ¬ IsDisconn p := fun hd => ht hd.2
    simp [nextRmt, hc, hd]

theorem canobjReadProp_rmt (path : ObpPath) (table : List (List Char)) (p : CanPacket)
    (s : Node) : (canobjReadProp path table p s).1.canconRmt = s.canconRmt := by
  unfold canobjReadProp
  split
  · split <;> simp
  · rfl

theorem canobjSwitch_rmt_of_ne {p : CanPacket} (hc : p.ext.object ≠ Canobj.consoleConnect)
    (hd : p.ext.object ≠ Canobj.consoleDisconn) (s : Node) :
    (canobjSwitch p s).1.canconRmt = s.canconRmt := by
  refine canobjSwitch_cases p s (P := fun r => r.1.canconRmt = s.canconRmt)
    ?_ ?_ ?_ ?_ ?_ ?_ ?_ ?_ ?_ ?_ ?_
  · intro h
    exact absurd h hc
  · intro h
    exact absurd h hd
  · intro _
    unfold canobjBreak
    split <;> simp
  · intro _
    unfold canobjForceDisconn
    split
    · simp only
      split_ifs <;> simp
    · rfl
  · intro _
    unfold canobjTestrw
    split <;> simp
  · intro _
    unfold canobjHeartbeat
    split <;> simp
  · intro _
    exact canobjReadProp_rmt _ _ p s
  · intro _
    unfold canobjResetIo
    split
    · split <;> simp
    · split <;> simp
    · rfl
  · intro _
    exact canobjReadProp_rmt _ _ p s
  · intro _
    unfold canobjDat
    split_ifs
    · rfl
    · split <;> simp
  · intro _ _ _ _
    rfl

/-- The dispatcher refines the ownership automaton. -/
theorem canobjPacket_rmt (p : CanPacket) (s : Node) :
    (canobjPacket p s).1.canconRmt = nextRmt p s.canconRmt := by
  rw [(canobjPacket_prints p s).canconRmt]
  by_cases hc : p.ext.object = Canobj.consoleConnect
  · rw [canobjSwitch_connect hc, canobjConnect_rmt hc]
  · by_cases hd : p.ext.object = Canobj.consoleDisconn
    · rw [canobjSwitch_disconn hd, canobjDisconnect_rmt hd]
    · rw [canobjSwitch_rmt_of_ne hc hd]
      simp [nextRmt, IsConnect, IsDisconn, hc, hd]

def Acked (p : CanPacket) (s : Node) : Prop := ∃ r ∈ replies p s, r.ext.type = .ack

def Naked (p : CanPacket) (s : Node) : Prop := ∃ r ∈ replies p s, r.ext.type = .nak

theorem replies_connect {p : CanPacket} (h : IsConnect p) (s : Node) :
    replies p s =
      if canconUnconnected s.canconRmt then [fixup s (acknakPkt .ack p (some p.dat))]
      else [fixup s (acknakPkt .nak p none)] := by
  have ha : p.ext.type.ackable = true := by rw [h.2]; rfl
  rw [replies, canobjPacket_of_ackable ha, canobjSwitch_connect h.1, canobjConnect, h.2]
  cases hu : canconUnconnected s.canconRmt with
  | true =>
    have ho := (canconSetcon_owns (some p) s).trans (canobjCanconHostSet_owns _)
    simp only [Bool.not_true, Bool.false_eq_true, if_false, if_true]
    rw [acknaks_canobjAcknak rfl, ho.acknaks, List.drop_left]
    simp only [fixup, ho.canNodeid, ho.jiffies]
    simp [canobjCanconHostSet, canconSetcon, extDat_datExt]
  | false =>
    simp only [Bool.not_false, if_true]
    rw [acknaks_canobjAcknak rfl, List.drop_left]
    simp

theorem replies_disconn {p : CanPacket} (h : IsDisconn p) (s : Node) :
    replies p s =
      [fixup s (acknakPkt (if canconUnconnected s.canconRmt then .nak else .ack) p none)] := by
  have ha : p.ext.type.ackable = true := by rw [h.2]; rfl
  rw [replies, canobjPacket_of_ackable ha, canobjSwitch_disconn h.1, canobjDisconnect, h.2]
  cases hu : canconUnconnected s.canconRmt with
  | true =>
    simp only [if_true]
    rw [acknaks_canobjAcknak rfl, List.drop_left]
  | false =>
    have ho := (canconSetcon_owns none s).trans (canobjCanconHostSet_owns _)
    simp only [Bool.false_eq_true, if_false]
    change (acknaks (canobjAcknak .ack p none _)).drop _ = _
    rw [acknaks_canobjAcknak rfl, ho.acknaks, List.drop_left]
    simp only [fixup, ho.canNodeid, ho.jiffies]

theorem acked_connect_iff {p : CanPacket} (h : IsConnect p) (s : Node) :
    Acked p s ↔ canconUnconnected s.canconRmt = true := by
  rw [Acked, replies_connect h]
  split_ifs with hu <;> simp [hu, acknakPkt]

theorem naked_connect_iff {p : CanPacket} (h : IsConnect p) (s : Node) :
    Naked p s ↔ canconUnconnected s.canconRmt = false := by
  rw [Naked, replies_connect h]
  split_ifs with hu <;> simp [hu, acknakPkt]

theorem acked_disconn_iff {p : CanPacket} (h : IsDisconn p) (s : Node) :
    Acked p s ↔ canconUnconnected s.canconRmt = false := by
  rw [Acked, replies_disconn h]
  split_ifs with hu <;> simp [hu, acknakPkt]

def runPackets (s : Node) (ps : List CanPacket) : Node :=
  ps.foldl (fun s p => (canobjPacket p s).1) s

theorem runPackets_append (s : Node) (ps qs : List CanPacket) :
    runPackets s (ps ++ qs) = runPackets (runPackets s ps) qs := List.foldl_append

/-- The address that stands for no console: cluster, module and node are all
0x3f. -/
def Unconnected (x : CanHeaderExt) : Prop := x.cluster = 0x3f ∧ x.module = 0x3f ∧ x.node = 0x3f

/-- The addresses on which `CANCON_UNCONNECTED` and `Unconnected` disagree. -/
def HalfUnconnected (x : CanHeaderExt) : Prop :=
  x.cluster = 0x3f ∧ x.module = 0x3f ∧ x.node ≠ 0x3f

instance (x : CanHeaderExt) : Decidable (Unconnected x) := inferInstanceAs (Decidable (_ ∧ _))

instance (x : CanHeaderExt) : Decidable (HalfUnconnected x) := inferInstanceAs (Decidable (_ ∧ _))

theorem canconUnconnected_iff_of_not_half {x : CanHeaderExt} (h : ¬ HalfUnconnected x) :
    canconUnconnected x = true ↔ Unconnected x := by
  rw [canconUnconnected_iff]
  constructor
  · intro hu
    exact ⟨hu.1, hu.2, by_contra fun hn => h ⟨hu.1, hu.2, hn⟩⟩
  · exact fun hu => ⟨hu.1, hu.2.1⟩

def NoDisconn (s : Node) (ps : List CanPacket) : Prop :=
  ∀ pre d post, ps = pre ++ d :: post → IsDisconn d → ¬ Acked d (runPackets s pre)

structure Owned (s : Node) (ps : List CanPacket) : Prop where
  /-- The recorded console changes only by an accepted connect or disconnect. -/
  changes : ∀ pre p post, ps = pre ++ p :: post →
    (canobjPacket p (runPackets s pre)).1.canconRmt ≠ (runPackets s pre).canconRmt →
    (IsConnect p ∧ Acked p (runPackets s pre) ∧ Unconnected (runPackets s pre).canconRmt) ∨
    (IsDisconn p ∧ Acked p (runPackets s pre) ∧ ¬ Unconnected (runPackets s pre).canconRmt)
  /-- From its acceptance to the next accepted disconnect a console stays
  recorded, and every other connect is refused and changes nothing. -/
  exclusive : ∀ pre p mid post, ps = pre ++ p :: mid ++ post →
    IsConnect p → Acked p (runPackets s pre) → ¬ Unconnected (datExt p.dat) →
    NoDisconn (runPackets s (pre ++ [p])) mid →
    (runPackets s (pre ++ p :: mid)).canconRmt = datExt p.dat ∧
    ∀ q, IsConnect q → Naked q (runPackets s (pre ++ p :: mid)) ∧
      (canobjPacket q (runPackets s (pre ++ p :: mid))).1.canconRmt =
        (runPackets s (pre ++ p :: mid)).canconRmt

/-- Every connect that finds no console names an address on which the two
tests agree. -/
def ProperConnects (s : Node) (ps : List CanPacket) : Prop :=
  ∀ pre p post, ps = pre ++ p :: post → IsConnect p →
    canconUnconnected (runPackets s pre).canconRmt = true → ¬ HalfUnconnected (datExt p.dat)

theorem nextRmt_not_half {p : CanPacket} {rmt : CanHeaderExt} (h : ¬ HalfUnconnected rmt)
    (hp : IsConnect p → canconUnconnected rmt = true → ¬ HalfUnconnected (datExt p.dat)) :
    ¬ HalfUnconnected (nextRmt p rmt) := by
  unfold nextRmt
  split_ifs with hc hu hd hu
  · exact hp hc hu
  · exact h
  · exact h
  · exact fun hh => hh.2.2 rfl
  · exact h

theorem runPackets_concat (s : Node) (ps : List CanPacket) (p : CanPacket) :
    runPackets s (ps ++ [p]) = (canobjPacket p (runPackets s ps)).1 := by
  rw [runPackets_append]
  rfl

theorem runPackets_not_half {s : Node} {ps : List CanPacket} (h : ¬ HalfUnconnected s.canconRmt)
    (hp : ProperConnects s ps) (pre post : List CanPacket) (he : ps = pre ++ post) :
    ¬ HalfUnconnected (runPackets s pre).canconRmt := by
  induction pre using List.reverseRecOn generalizing post with
  | nil => exact h
  | append_singleton pre p ih =>
    rw [runPackets_concat, canobjPacket_rmt]
    exact nextRmt_not_half (ih (p :: post) (by simpa using he))
      (hp pre p post (by simpa using he))

theorem nextRmt_ne {p : CanPacket} {rmt : CanHeaderExt} (h : nextRmt p rmt ≠ rmt) :
    (IsConnect p ∧ canconUnconnected rmt = true) ∨
      (IsDisconn p ∧ canconUnconnected rmt = false) := by
  unfold nextRmt at h
  split_ifs at h with hc hu hd hu
  · exact .inl ⟨hc, hu⟩
  · exact absurd rfl h
  · exact absurd rfl h
  · exact .inr ⟨hd, Bool.eq_false_iff.mpr hu⟩
  · exact absurd rfl h

theorem rmt_of_noDisconn {s : Node} {ps : List CanPacket}
    (h : canconUnconnected s.canconRmt = false) (hn : NoDisconn s ps) :
    (runPackets s ps).canconRmt = s.canconRmt := by
  induction ps using List.reverseRecOn with
  | nil => rfl
  | append_singleton ps p ih =>
    have hs : (runPackets s ps).canconRmt = s.canconRmt :=
      ih (fun pre d post he => hn pre d (post ++ [p]) (by simp [he]))
    rw [runPackets_concat, canobjPacket_rmt, hs]
    by_contra hne
    rcases nextRmt_ne hne with ⟨_, hu⟩ | ⟨hd, _⟩
    · rw [h] at hu
      exact absurd hu (by simp)
    · exact hn ps p [] rfl hd ((acked_disconn_iff hd _).mpr (by rw [hs, h]))

/-- Ownership holds in every run whose accepted connects avoid the addresses
with cluster and module 0x3f and another node. -/
theorem console_owned {s : Node} {ps : List CanPacket} (h : ¬ HalfUnconnected s.canconRmt)
    (hp : ProperConnects s ps) : Owned s ps where
  changes := by
    intro pre p post he hne
    have hh := canconUnconnected_iff_of_not_half (runPackets_not_half h hp pre (p :: post) he)
    rw [canobjPacket_rmt] at hne
    rcases nextRmt_ne hne with ⟨hc, hu⟩ | ⟨hd, hu⟩
    · exact .inl ⟨hc, (acked_connect_iff hc _).mpr hu, hh.mp hu⟩
    · refine .inr ⟨hd, (acked_disconn_iff hd _).mpr hu, fun hun => ?_⟩
      rw [hh.mpr hun] at hu
      exact absurd hu (by simp)
  exclusive := by
    intro pre p mid post he hc ha hu hn
    have hun := (acked_connect_iff hc _).mp ha
    have hset : (runPackets s (pre ++ [p])).canconRmt = datExt p.dat := by
      rw [runPackets_concat, canobjPacket_rmt, nextRmt, if_pos hc, if_pos hun]
    have hcon : canconUnconnected (datExt p.dat) = false := by
      have hh := hp pre p (mid ++ post) (by simpa using he) hc hun
      exact Bool.eq_false_iff.mpr fun hx => hu ((canconUnconnected_iff_of_not_half hh).mp hx)
    have hmid : (runPackets s (pre ++ p :: mid)).canconRmt = datExt p.dat := by
      have hr := rmt_of_noDisconn (by rw [hset]; exact hcon) hn
      rw [hset, ← runPackets_append] at hr
      simpa using hr
    refine ⟨hmid, fun q hq => ⟨(naked_connect_iff hq _).mpr (by rw [hmid]; exact hcon), ?_⟩⟩
    rw [canobjPacket_rmt, nextRmt, if_pos hq, hmid, hcon]
    simp

def connectPkt (rmt : CanHeaderExt) : CanPacket where
  timestamp := 0
  can := ⟨0, 1, 2, 0, 8⟩
  ext := ⟨0, .wo, 0, 0, 1, Canobj.consoleConnect⟩
  dat := rmt.extDat

theorem console_owned_two_consoles :
    Owned (Node.boot 1 noConsole (.init 1) .empty)
      [connectPkt ⟨0, .dat, 0, 0, 3, 0x100⟩, connectPkt ⟨0, .dat, 0, 0, 2, 0x101⟩] := by
  refine console_owned (by decide) fun pre p post he _ _ => ?_
  have hp : p ∈ [connectPkt ⟨0, .dat, 0, 0, 3, 0x100⟩, connectPkt ⟨0, .dat, 0, 0, 2, 0x101⟩] := by
    rw [he]
    simp
  simp only [List.mem_cons, List.not_mem_nil, or_false] at hp
  rcases hp with rfl | rfl <;> rw [connectPkt, datExt_extDat] <;> decide

/-- Console object 0x100 of node 3f,3f,05 connects, and then console object
0x101 of node 0,0,2 connects as well. -/
theorem second_console_let_in :
    ¬ Owned (Node.boot 1 noConsole (.init 1) .empty)
      [connectPkt ⟨0, .dat, 0x3f, 0x3f, 5, 0x100⟩, connectPkt ⟨0, .dat, 0, 0, 2, 0x101⟩] := by
  intro h
  have hc : ∀ x, IsConnect (connectPkt x) := fun x => ⟨rfl, rfl⟩
  have hx := h.exclusive [] (connectPkt ⟨0, .dat, 0x3f, 0x3f, 5, 0x100⟩) []
    [connectPkt ⟨0, .dat, 0, 0, 2, 0x101⟩] rfl (hc _)
    ((acked_connect_iff (hc _) _).mpr rfl)
    (by rw [connectPkt, datExt_extDat]; decide)
    (fun pre d post he => by simp at he)
  have hn := (naked_connect_iff (hc _) _).mp (hx.2 _ (hc ⟨0, .dat, 0, 0, 2, 0x101⟩)).1
  rw [hx.1, connectPkt, datExt_extDat] at hn
  exact absurd hn (by decide)

end MeikoCs2
