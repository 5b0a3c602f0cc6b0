import MeikoCs2.Memory
import MeikoCs2.Packet
import MeikoCs2.Runs

/-! The queue of keystrokes between `tty_reader` and `writer` of cancon. Every
section between the lock and the unlock of `outchars_mutex` is one step. The
wait of `waitfor_outchars` is not in a loop, so a writer that wakes up for
nothing takes nothing. -/

namespace MeikoCs2

abbrev outcharsSize : Int := 1024

/-- The memory from `outchars` on, and `outcharslen`. -/
structure Outchars where
  outchars : Nat → Byte
  outcharslen : Int

namespace Outchars

def queued (s : Outchars) : List Byte := cells s.outchars 0 s.outcharslen.toNat

/-- The loop of `signal_outchars` with the bytes of the buffer left. -/
def signalLoop : List Byte → Int → Outchars → Outchars × Int
  | [], count, s => (s, count)
  | b :: buf, count, s =>
    if s.outcharslen < outcharsSize then
      signalLoop buf (count + 1)
        ⟨Function.update s.outchars s.outcharslen.toNat b, s.outcharslen + 1⟩
    else (s, count)

def signalOutchars (buf : List Byte) (s : Outchars) : Outchars × Int := signalLoop buf 0 s

def xmin (a b : Int) : Int := if a < b then a else b

/-- The part of `waitfor_outchars` behind the wait. -/
def takeOutchars (maxlen : Int) (s : Outchars) : Outchars × List Byte :=
  let count := xmin s.outcharslen maxlen
  (⟨memmove 0 count.toNat (s.outcharslen - count).toNat s.outchars, s.outcharslen - count⟩,
    cells s.outchars 0 count.toNat)

structure Valid (s : Outchars) : Prop where
  nonneg : 0 ≤ s.outcharslen
  le : s.outcharslen ≤ outcharsSize

theorem queued_push {s : Outchars} (h : 0 ≤ s.outcharslen) (b : Byte) :
    queued ⟨Function.update s.outchars s.outcharslen.toNat b, s.outcharslen + 1⟩ =
      s.queued ++ [b] := by
  have hlen : (s.outcharslen + 1).toNat = s.outcharslen.toNat + 1 := by omega
  have hc := cells_update s.outchars 0 s.outcharslen.toNat b
  rw [Nat.zero_add] at hc
  rw [queued, hlen]
  exact hc

/-- A prefix of the buffer is accepted, and the count says how long it is. -/
theorem signalLoop_spec (buf : List Byte) (count : Int) {s : Outchars} (h : s.Valid) :
    ∃ k ≤ buf.length, (signalLoop buf count s).2 = count + k ∧
      (signalLoop buf count s).1.queued = s.queued ++ buf.take k ∧
      (signalLoop buf count s).1.Valid := by
  induction buf generalizing count s with
  | nil => exact ⟨0, Nat.le_refl _, by simp [signalLoop], by simp [signalLoop], h⟩
  | cons b buf ih =>
    rw [signalLoop]
    split_ifs with hroom
    · have hv : Valid ⟨Function.update s.outchars s.outcharslen.toNat b, s.outcharslen + 1⟩ :=
        ⟨by have := h.nonneg; simp only; omega, hroom⟩
      obtain ⟨k, hk, hcount, hqueued, hvalid⟩ := ih (count + 1) hv
      refine ⟨k + 1, by simpa using hk, by rw [hcount]; omega, ?_, hvalid⟩
      rw [hqueued, queued_push h.nonneg, List.take_succ_cons, List.append_assoc]
      rfl
    · exact ⟨0, Nat.zero_le _, by simp, by simp, h⟩

theorem takeOutchars_spec {maxlen : Int} (hm : 0 ≤ maxlen) {s : Outchars} (h : s.Valid) :
    (takeOutchars maxlen s).2 ++ (takeOutchars maxlen s).1.queued = s.queued ∧
      (takeOutchars maxlen s).1.Valid := by
  obtain ⟨h₀, h₁⟩ := h
  have hc : 0 ≤ xmin s.outcharslen maxlen ∧ xmin s.outcharslen maxlen ≤ s.outcharslen := by
    unfold xmin
    split_ifs <;> omega
  obtain ⟨hc₀, hc₁⟩ := hc
  refine ⟨?_, ⟨by simp only [takeOutchars]; omega, by simp only [takeOutchars]; omega⟩⟩
  have hlen : s.outcharslen.toNat =
      (xmin s.outcharslen maxlen).toNat + (s.outcharslen - xmin s.outcharslen maxlen).toNat := by
    omega
  simp only [takeOutchars, queued]
  rw [cells_memmove, hlen, cells_add, Nat.zero_add]

end Outchars

/-- The queue, where its two threads are, and what has gone in and out: the
buffers offered, with the counts returned. -/
structure KeyQueue where
  chars : Outchars
  waiting : Bool
  -- the value of `dropped` that `tty_reader` is about to look at
  dropped : Option Int
  signals : List (List Byte × Int)
  returned : List Byte
  reported : Int

namespace KeyQueue

def init (outchars : Nat → Byte) : KeyQueue where
  chars := ⟨outchars, 0⟩
  waiting := false
  dropped := none
  signals := []
  returned := []
  reported := 0

def offered (s : KeyQueue) : Int := (s.signals.map fun x => (x.1.length : Int)).sum

def accepted (s : KeyQueue) : List Byte := s.signals.flatMap fun x => x.1.take x.2.toNat

inductive Op where
  -- `tty_reader`
  | signal (buf : List Byte)
  | report
  -- `writer`
  | waitfor
  | wake

def take (s : KeyQueue) : KeyQueue :=
  let r := s.chars.takeOutchars 4
  { s with chars := r.1, waiting := false, returned := s.returned ++ r.2 }

/-- A waiting writer may wake up at any time, with or without a signal. -/
def step (s : KeyQueue) : Op → Option KeyQueue
  | .signal buf =>
    match s.dropped with
    | none =>
      let r := s.chars.signalOutchars buf
      some { s with
        chars := r.1
        dropped := some (buf.length - r.2)
        signals := s.signals ++ [(buf, r.2)] }
    | some _ => none
  | .report =>
    s.dropped.map fun d =>
      { s with dropped := none, reported := if 0 < d then s.reported + d else s.reported }
  | .waitfor =>
    if s.waiting then none
    else if s.chars.outcharslen = 0 then some { s with waiting := true }
    else some s.take
  | .wake => if s.waiting then some s.take else none

abbrev Step (s : KeyQueue) (op : Op) (u : KeyQueue) : Prop := s.step op = some u

structure Inv (s : KeyQueue) : Prop where
  valid : s.chars.Valid
  stream : s.returned ++ s.chars.queued = s.accepted
  nonneg : 0 ≤ s.dropped.getD 0
  account : s.reported + s.dropped.getD 0 = s.offered - s.accepted.length

theorem inv_init (outchars : Nat → Byte) : Inv (init outchars) where
  valid := ⟨Int.le_refl 0, show (0 : Int) ≤ outcharsSize by decide⟩
  stream := rfl
  nonneg := Int.le_refl 0
  account := rfl

variable {s u : KeyQueue}

theorem Inv.take (h : s.Inv) : s.take.Inv := by
  obtain ⟨htake, hvalid⟩ := Outchars.takeOutchars_spec (show (0 : Int) ≤ 4 by decide) h.valid
  refine ⟨hvalid, ?_, h.nonneg, h.account⟩
  change (s.returned ++ (s.chars.takeOutchars 4).2) ++ (s.chars.takeOutchars 4).1.queued = _
  rw [List.append_assoc, htake]
  exact h.stream

theorem Inv.signal (h : s.Inv) (hd : s.dropped = none) (buf : List Byte) :
    Inv { s with
      chars := (s.chars.signalOutchars buf).1
      dropped := some (buf.length - (s.chars.signalOutchars buf).2)
      signals := s.signals ++ [(buf, (s.chars.signalOutchars buf).2)] } := by
  obtain ⟨k, hk, hcount, hqueued, hvalid⟩ := Outchars.signalLoop_spec buf 0 h.valid
  have hcount' : (s.chars.signalOutchars buf).2 = k := by
    rw [Outchars.signalOutchars, hcount, Int.zero_add]
  have hacc := h.account
  have hstream := h.stream
  rw [hd] at hacc
  refine ⟨hvalid, ?_, ?_, ?_⟩
  · simp only [accepted, List.flatMap_append, List.flatMap_singleton, hcount', Int.toNat_natCast]
    rw [Outchars.signalOutchars, hqueued, ← List.append_assoc, hstream]
    rfl
  · simp only [Option.getD_some, hcount']
    omega
  · simp only [offered, accepted, Option.getD_some, Option.getD_none, hcount', List.map_append,
      List.sum_append, List.flatMap_append, List.length_append, List.flatMap_singleton,
      List.map_cons, List.map_nil, List.sum_cons, List.sum_nil, Int.toNat_natCast,
      List.length_take, Nat.min_eq_left hk] at hacc ⊢
    push_cast
    omega

theorem Inv.step (h : s.Inv) {op : Op} (hs : Step s op u) : u.Inv := by
  cases op with
  | signal buf =>
    simp only [Step, KeyQueue.step] at hs
    split at hs
    · rename_i hd
      rw [← Option.some.inj hs]
      exact h.signal hd buf
    · cases hs
  | report =>
    obtain ⟨d, hd, rfl⟩ := Option.map_eq_some_iff.mp hs
    have hn := h.nonneg
    have ha := h.account
    rw [hd, Option.getD_some] at hn ha
    refine ⟨h.valid, h.stream, Int.le_refl 0, ?_⟩
    simp only [Option.getD_none]
    split_ifs with hpos
    · rw [Int.add_zero]
      exact ha
    · have h0 : d = 0 := by omega
      rw [h0] at ha
      exact ha
  | waitfor =>
    simp only [Step, KeyQueue.step] at hs
    split_ifs at hs
    · rw [← Option.some.inj hs]
      exact ⟨h.valid, h.stream, h.nonneg, h.account⟩
    · rw [← Option.some.inj hs]
      exact h.take
  | wake =>
    simp only [Step, KeyQueue.step] at hs
    split_ifs at hs
    rw [← Option.some.inj hs]
    exact h.take

end KeyQueue

/-- In every schedule the length stays within the array, the writer has got
what was accepted except for what is queued, and what was offered and not
accepted has been reported, up to the report that is due. -/
theorem keystroke_queue {outchars : Nat → Byte} {tr : List (KeyQueue × KeyQueue.Op)}
    {s : KeyQueue} (h : Run KeyQueue.Step (.init outchars) tr s) :
    (0 ≤ s.chars.outcharslen ∧ s.chars.outcharslen ≤ outcharsSize) ∧
      s.returned ++ s.chars.queued = s.accepted ∧
      s.reported + s.dropped.getD 0 = s.offered - s.accepted.length ∧
      (s.dropped = none → s.reported = s.offered - s.accepted.length) := by
  have hi : s.Inv := h.invariant (KeyQueue.inv_init outchars) fun _ _ _ ht hst => ht.step hst
  refine ⟨⟨hi.valid.nonneg, hi.valid.le⟩, hi.stream, hi.account, fun hd => ?_⟩
  have ha := hi.account
  rw [hd] at ha
  simpa using ha

/-- A writer that wakes up for nothing, and then takes four of five keys. -/
theorem keystroke_queue_spurious :
    ∃ s : KeyQueue, s.returned = [1, 2, 3, 4] ∧ s.chars.queued = [5] ∧
      s.returned ++ s.chars.queued = s.accepted := by
  have hrun := @Run.nil _ _ KeyQueue.Step (.init fun _ => 0)
    |>.snoc (l := .waitfor) rfl |>.snoc (l := .wake) rfl
    |>.snoc (l := .signal [1, 2, 3, 4, 5]) rfl |>.snoc (l := .report) rfl
    |>.snoc (l := .waitfor) rfl
  exact ⟨_, by decide, by decide, (keystroke_queue hrun).2.1⟩

end MeikoCs2
