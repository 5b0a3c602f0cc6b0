import MeikoCs2.Console
import MeikoCs2.Runs

/-! The ring macros of `asm/meiko/can.h` over the plain ints that the C code
keeps. A `Ringbuf` follows a `Ring`, and through it a bounded first-in
first-out list, along every sequence of operations. -/

namespace MeikoCs2

/-- `ringbuf_t` and `cringbuf_t`, without the locks that nothing takes. -/
structure Ringbuf (α : Type) where
  buf : Int → α
  head : Int
  tail : Int

namespace Ringbuf

variable {α : Type}

/-- RING_NEXT, with the remainder of C. -/
def ringNext (n : Int) : Int := (n + 1).tmod maxring

def ringFull (r : Ringbuf α) : Bool := ringNext r.head == r.tail

def ringEmpty (r : Ringbuf α) : Bool := r.head == r.tail

def ringRoom (r : Ringbuf α) : Int :=
  if r.tail - r.head ≤ 0 then maxring - r.head + r.tail - 1 else r.tail - r.head - 1

def ringSize (r : Ringbuf α) : Int :=
  if 0 ≤ r.head - r.tail then r.head - r.tail else maxring - r.tail + r.head

/-- RING_INIT does not touch the buffer. -/
def init (buf : Int → α) : Ringbuf α := ⟨buf, 0, 0⟩

def ringClear (r : Ringbuf α) : Ringbuf α := { r with head := 0, tail := 0 }

def ringIn (x : α) (r : Ringbuf α) : Ringbuf α :=
  { r with buf := Function.update r.buf r.head x, head := ringNext r.head }

def ringOut (r : Ringbuf α) : α × Ringbuf α := (r.buf r.tail, { r with tail := ringNext r.tail })

/-- `pkt_to_ring` and `char_to_ring`. -/
def toRing (x : α) (r : Ringbuf α) : Ringbuf α × Bool :=
  if r.ringFull then (r, false) else (ringIn x r, true)

/-- `ring_to_pkt` and `ring_to_char`. -/
def ofRing (r : Ringbuf α) : Option α × Ringbuf α :=
  if r.ringEmpty then (none, r) else (some (ringOut r).1, (ringOut r).2)

def pktToRing : CanPacket → Ringbuf CanPacket → Ringbuf CanPacket × Bool := toRing

def ringToPkt : Ringbuf CanPacket → Option CanPacket × Ringbuf CanPacket := ofRing

def charToRing : Byte → Ringbuf Byte → Ringbuf Byte × Bool := toRing

def ringToChar : Ringbuf Byte → Option Byte × Ringbuf Byte := ofRing

def clearRing : Ringbuf Byte → Ringbuf Byte := ringClear

def canttyWriteRoom (tty : Tty) (canconOutbuf : Ringbuf Byte) : Int :=
  if tty.stopped then 0 else ringRoom canconOutbuf

def canttyCharsInBuffer (canconOutbuf : Ringbuf Byte) : Int := ringSize canconOutbuf

/-- The elements from tail up to head, oldest first. -/
def contents (r : Ringbuf α) : List α :=
  (List.range (ringSize r).toNat).map fun k : Nat => r.buf ((r.tail + k) % maxring)

/-- The C ring and the ring with indices in `Fin` are in the same state. -/
structure Models (r : Ringbuf α) (q : Ring maxring α) : Prop where
  head : r.head = q.head.val
  tail : r.tail = q.tail.val
  buf : ∀ i : Fin maxring, r.buf i.val = q.buf i

theorem ringNext_val (i : Fin maxring) : ringNext i.val = (Ring.next i).val := by
  have hi := i.isLt
  have hm : (maxring : Int) = 1024 := rfl
  rw [Ring.next_val i (by decide), ringNext, Int.tmod_eq_emod_of_nonneg (by omega), hm]
  split_ifs with h
  · have h' : i.val + 1 < 1024 := h
    omega
  · have h' : ¬ i.val + 1 < 1024 := h
    have hi' : i.val < 1024 := hi
    omega

namespace Models

variable {r : Ringbuf α} {q : Ring maxring α}

theorem init (buf : Int → α) :
    Models (.init buf) ⟨fun i => buf i.val, 0, 0⟩ := ⟨rfl, rfl, fun _ => rfl⟩

theorem ringFull (h : Models r q) : r.ringFull = q.full := by
  rw [Bool.eq_iff_iff]
  simp only [Ringbuf.ringFull, Ring.full, beq_iff_eq, h.head, h.tail, ringNext_val, Fin.ext_iff]
  omega

theorem ringEmpty (h : Models r q) : r.ringEmpty = q.empty := by
  rw [Bool.eq_iff_iff]
  simp only [Ringbuf.ringEmpty, Ring.empty, beq_iff_eq, h.head, h.tail, Fin.ext_iff]
  omega

theorem ringSize (h : Models r q) : r.ringSize = q.size := by
  have := q.head.isLt
  have := q.tail.isLt
  simp only [Ringbuf.ringSize, Ring.size, h.head, h.tail]
  split_ifs <;> omega

theorem ringRoom (h : Models r q) : r.ringRoom = q.room := by
  have := q.head.isLt
  have := q.tail.isLt
  simp only [Ringbuf.ringRoom, Ring.room, h.head, h.tail]
  split_ifs <;> omega

theorem contents (h : Models r q) : r.contents = q.toList := by
  rw [Ringbuf.contents, h.ringSize, Ring.toList, Int.toNat_natCast]
  apply List.map_congr_left
  intro k _
  rw [← h.buf, h.tail, Ring.after]
  congr 1

theorem ringIn (h : Models r q) (x : α) :
    Models (ringIn x r) { q with buf := Function.update q.buf q.head x, head := Ring.next q.head } where
  head := by
    simp only [Ringbuf.ringIn, h.head, ringNext_val]
  tail := h.tail
  buf := by
    intro i
    by_cases hi : i = q.head
    · subst hi
      simp only [Ringbuf.ringIn, h.head, Function.update_self]
    · have hne : (i.val : Int) ≠ r.head := by
        rw [h.head]
        omega
      simp only [Ringbuf.ringIn, Function.update_of_ne hne, Function.update_of_ne hi, h.buf]

theorem toRing (h : Models r q) (x : α) :
    (toRing x r).2 = (q.put x).2 ∧ Models (toRing x r).1 (q.put x).1 := by
  unfold Ringbuf.toRing Ring.put
  rw [h.ringFull]
  split_ifs
  · exact ⟨rfl, h⟩
  · exact ⟨rfl, h.ringIn x⟩

theorem ofRing (h : Models r q) :
    (ofRing r).1 = q.get.map Prod.fst ∧ Models (ofRing r).2 ((q.get.map Prod.snd).getD q) := by
  unfold Ringbuf.ofRing Ring.get
  rw [h.ringEmpty]
  split_ifs
  · exact ⟨rfl, h⟩
  · refine ⟨?_, h.head, ?_, h.buf⟩
    · simp only [ringOut, h.tail, h.buf, Option.map_some]
    · simp only [ringOut, h.tail, ringNext_val, Option.map_some, Option.getD_some]

theorem ringClear (h : Models r q) : Models r.ringClear q.clear := ⟨rfl, rfl, h.buf⟩

end Models

inductive Op (α : Type) where
  | insert (x : α)
  | remove
  | clear

/-- What an operation returns: whether it inserted, or what it removed. -/
inductive Res (α : Type) where
  | inserted (ok : Bool)
  | removed (x : Option α)
  | cleared

def exec (r : Ringbuf α) : Op α → Ringbuf α × Res α
  | .insert x => ((toRing x r).1, .inserted (toRing x r).2)
  | .remove => ((ofRing r).2, .removed (ofRing r).1)
  | .clear => (ringClear r, .cleared)

end Ringbuf

/-! What a ring is for: a first-in first-out list of bounded length. -/

namespace Fifo

open Ringbuf (Op Res)

variable {α : Type}

def exec (bound : Nat) (l : List α) : Op α → List α × Res α
  | .insert x => if l.length = bound then (l, .inserted false) else (l ++ [x], .inserted true)
  | .remove => (l.tail, .removed l.head?)
  | .clear => ([], .cleared)

end Fifo

namespace Ringbuf

variable {α : Type}

def Represents (r : Ringbuf α) (l : List α) : Prop := ∃ q, Models r q ∧ q.toList = l

theorem Represents.exec {r : Ringbuf α} {l : List α} (h : Represents r l) (op : Op α) :
    (exec r op).2 = (Fifo.exec 1023 l op).2 ∧
      Represents (exec r op).1 (Fifo.exec 1023 l op).1 := by
  obtain ⟨q, hq, rfl⟩ := h
  cases op with
  | insert x =>
    obtain ⟨hres, hnext⟩ := hq.toRing x
    simp only [Ringbuf.exec, Fifo.exec, hres, Ring.length_toList, Ring.put_snd]
    cases hf : q.full with
    | true =>
      have hs : q.size = 1023 := by
        have hs := (q.full_iff (by decide)).mp hf
        exact Nat.add_right_cancel hs
      rw [if_pos hs]
      rw [Ring.put_of_full hf] at hnext
      exact ⟨rfl, q, hnext, rfl⟩
    | false =>
      have hs : q.size ≠ 1023 := by
        intro hs
        rw [(q.full_iff (by decide)).mpr (congrArg (· + 1) hs)] at hf
        cases hf
      rw [if_neg hs]
      exact ⟨rfl, (q.put x).1, hnext, Ring.toList_put (by decide) hf x⟩
  | remove =>
    obtain ⟨hres, hnext⟩ := hq.ofRing
    simp only [Ringbuf.exec, Fifo.exec, hres]
    cases hg : q.get with
    | none =>
      rw [hg] at hnext
      rw [(q.get_eq_none_iff).mp hg]
      exact ⟨rfl, q, hnext, (q.get_eq_none_iff).mp hg⟩
    | some y =>
      obtain ⟨x, q'⟩ := y
      rw [hg] at hnext
      rw [Ring.toList_of_get (by decide) hg]
      exact ⟨rfl, q', hnext, rfl⟩
  | clear => exact ⟨rfl, q.clear, hq.ringClear, q.toList_clear⟩

/-- A C ring in the place of the list `l`. -/
structure RefinesFifo (r : Ringbuf α) (l : List α) : Prop where
  contents : r.contents = l
  length : l.length ≤ 1023
  head : 0 ≤ r.head ∧ r.head ≤ 1023
  tail : 0 ≤ r.tail ∧ r.tail ≤ 1023
  refused : l.length = 1023 → ∀ x, toRing x r = (r, false)
  accepted : l.length ≠ 1023 → ∀ x, (toRing x r).2 = true ∧ (toRing x r).1.contents = l ++ [x]
  empty : l = [] → ofRing r = (none, r)
  oldest : ∀ x xs, l = x :: xs → (ofRing r).1 = some x ∧ (ofRing r).2.contents = xs
  size : r.ringSize = l.length
  room : r.ringRoom = 1023 - l.length

theorem Represents.contents_eq {r : Ringbuf α} {l : List α} (h : Represents r l) :
    r.contents = l := by
  obtain ⟨q, hq, rfl⟩ := h
  exact hq.contents

theorem Represents.refinesFifo {r : Ringbuf α} {l : List α} (h : Represents r l) :
    RefinesFifo r l := by
  obtain ⟨q, hq, hl⟩ := h
  have hsize : q.size = l.length := by rw [← hl, Ring.length_toList]
  have hlt : q.size < 1024 := q.size_lt
  have hhead : q.head.val < 1024 := q.head.isLt
  have htail : q.tail.val < 1024 := q.tail.isLt
  have hroom : q.room = 1024 - 1 - q.size := q.room_eq
  have hfull := q.full_iff (by decide)
  refine ⟨hq.contents.trans hl, by omega, ?_, ?_, ?_, ?_, ?_, ?_, ?_, ?_⟩
  · rw [hq.head]
    omega
  · rw [hq.tail]
    omega
  · intro hl' x
    have hf : r.ringFull = true := by
      rw [hq.ringFull, hfull]
      exact congrArg (· + 1) (hsize.trans hl')
    rw [toRing, if_pos hf]
  · intro hl' x
    have hx := Represents.exec ⟨q, hq, hl⟩ (.insert x)
    simp only [Ringbuf.exec, Fifo.exec, if_neg hl', Res.inserted.injEq] at hx
    exact ⟨hx.1, hx.2.contents_eq⟩
  · intro hl'
    have he : r.ringEmpty = true := by
      rw [hq.ringEmpty, q.empty_iff, hsize, hl']
      rfl
    rw [ofRing, if_pos he]
  · intro x xs hl'
    have hx := Represents.exec ⟨q, hq, hl⟩ .remove
    simp only [Ringbuf.exec, Fifo.exec, hl', List.head?_cons, List.tail_cons,
      Res.removed.injEq] at hx
    exact ⟨hx.1, hx.2.contents_eq⟩
  · rw [hq.ringSize, hsize]
  · rw [hq.ringRoom, hroom]
    omega

theorem represents_init (buf : Int → α) : Represents (init buf) [] := ⟨_, Models.init buf, rfl⟩

/-- Along every sequence of operations from RING_INIT the ring returns what a
list of at most 1023 elements returns, and stays in the place of that list.
The room and the size of the console's buffer then share 1023 places. -/
theorem ringbuf_refines_fifo :
    (∀ {α : Type} (buf : Int → α) (ops : List (Op α)),
      (execAll exec (init buf) ops).2 = (execAll (Fifo.exec 1023) [] ops).2 ∧
      RefinesFifo (execAll exec (init buf) ops).1 (execAll (Fifo.exec 1023) [] ops).1) ∧
    ∀ (buf : Int → Byte) (ops : List (Op Byte)) (tty : Tty), tty.stopped = false →
      canttyWriteRoom tty (execAll exec (init buf) ops).1 +
        canttyCharsInBuffer (execAll exec (init buf) ops).1 = 1023 := by
  have hall : ∀ {α : Type} (buf : Int → α) (ops : List (Op α)),
      (execAll exec (init buf) ops).2 = (execAll (Fifo.exec 1023) [] ops).2 ∧
      RefinesFifo (execAll exec (init buf) ops).1 (execAll (Fifo.exec 1023) [] ops).1 := by
    intro α buf ops
    obtain ⟨hres, hlast⟩ := execAll_simulates (fun _ _ op h => h.exec op) (represents_init buf) ops
    exact ⟨hres, hlast.refinesFifo⟩
  refine ⟨hall, ?_⟩
  intro buf ops tty ht
  have hr := (hall buf ops).2
  rw [canttyWriteRoom, canttyCharsInBuffer, ht, if_neg (by decide), hr.size, hr.room]
  omega

theorem write_room_after_two_chars :
    canttyWriteRoom ⟨false, [], false⟩
        (execAll exec (init fun _ => 0) [.insert 0x68#8, .insert 0x69#8]).1 +
      canttyCharsInBuffer
        (execAll exec (init fun _ => 0) [.insert 0x68#8, .insert 0x69#8]).1 = 1023 :=
  ringbuf_refines_fifo.2 _ _ _ rfl

end Ringbuf

end MeikoCs2
