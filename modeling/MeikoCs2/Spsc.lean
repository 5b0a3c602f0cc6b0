import MeikoCs2.Ring
import MeikoCs2.Runs

/-! One producer and one consumer on a ring without a lock. A call is three
elementary steps: test the indices, move one element between the ring and the
caller, advance one index. The steps of the two sides interleave in any way. -/

namespace MeikoCs2

namespace Spsc

variable {n : Nat} {α : Type}

/-- How far the call of the producer has come. -/
inductive Producer (α : Type) where
  | idle
  | tested (x : α)
  | stored (x : α)

inductive Consumer (α : Type) where
  | idle
  | tested
  | loaded (x : α)

/-- The ring, the two callers, and what the calls that went through have
inserted and removed, oldest first. -/
structure State (n : Nat) (α : Type) where
  ring : Ring n α
  producer : Producer α
  consumer : Consumer α
  accepted : List α
  returned : List α

inductive Lbl (α : Type) where
  | refusedIn (x : α)
  | testFull (x : α)
  | store
  | advanceHead
  | refusedOut
  | testEmpty
  | load
  | advanceTail

/-- A refused call ends with its test. -/
inductive Step : State n α → Lbl α → State n α → Prop where
  | refusedIn {s : State n α} (x : α) : s.producer = .idle → s.ring.full = true →
      Step s (.refusedIn x) s
  | testFull {s : State n α} (x : α) : s.producer = .idle → s.ring.full = false →
      Step s (.testFull x) { s with producer := .tested x }
  | store {s : State n α} (x : α) : s.producer = .tested x →
      Step s .store { s with ring := s.ring.store x, producer := .stored x }
  | advanceHead {s : State n α} (x : α) : s.producer = .stored x →
      Step s .advanceHead
        { s with ring := s.ring.advanceHead, producer := .idle, accepted := s.accepted ++ [x] }
  | refusedOut {s : State n α} : s.consumer = .idle → s.ring.empty = true → Step s .refusedOut s
  | testEmpty {s : State n α} : s.consumer = .idle → s.ring.empty = false →
      Step s .testEmpty { s with consumer := .tested }
  | load {s : State n α} : s.consumer = .tested →
      Step s .load { s with consumer := .loaded (s.ring.buf s.ring.tail) }
  | advanceTail {s : State n α} (x : α) : s.consumer = .loaded x →
      Step s .advanceTail
        { s with ring := s.ring.advanceTail, consumer := .idle, returned := s.returned ++ [x] }

def State.init [NeZero n] (buf : Fin n → α) : State n α := ⟨⟨buf, 0, 0⟩, .idle, .idle, [], []⟩

/-- A half-finished insert has room and has left its element at the head; a
half-finished removal holds the oldest element. -/
structure Inv [NeZero n] (s : State n α) : Prop where
  queue : s.accepted = s.returned ++ s.ring.toList
  head : s.ring.head = Ring.after 0 s.accepted.length
  tail : s.ring.tail = Ring.after 0 s.returned.length
  room : s.producer ≠ .idle → s.ring.full = false
  stored : ∀ x, s.producer = .stored x → s.ring.buf s.ring.head = x
  filled : s.consumer ≠ .idle → s.ring.toList ≠ []
  loaded : ∀ x, s.consumer = .loaded x → s.ring.buf s.ring.tail = x

theorem tail_ne_head {r : Ring n α} (h : r.toList ≠ []) : r.tail ≠ r.head := by
  intro he
  have hf := (Ring.empty_eq_false_iff r).mpr h
  rw [Ring.empty, he] at hf
  simp at hf

variable [NeZero n]

theorem inv_init (buf : Fin n → α) : Inv (.init buf) where
  queue := by simp [State.init, Ring.toList, Ring.size]
  head := (Ring.after_zero 0).symm
  tail := (Ring.after_zero 0).symm
  room h := absurd rfl h
  stored := nofun
  filled h := absurd rfl h
  loaded := nofun

theorem next_after_zero (k : Nat) : Ring.next (Ring.after (0 : Fin n) k) = Ring.after 0 (k + 1) := by
  apply Fin.ext
  simp [Ring.next, Ring.after]

theorem Inv.step (hn : 1 < n) {s u : State n α} {l : Lbl α} (hi : Inv s) (h : Step s l u) :
    Inv u := by
  cases h with
  | refusedIn x hp hf => exact hi
  | testFull x hp hf =>
    exact ⟨hi.queue, hi.head, hi.tail, fun _ => hf, nofun, hi.filled, hi.loaded⟩
  | store x hp =>
    have hr := hi.room (by simp [hp])
    refine ⟨?_, hi.head, hi.tail, fun _ => hr, ?_, ?_, ?_⟩
    · rw [Ring.toList_store]
      exact hi.queue
    · intro y hy
      cases hy
      exact Ring.buf_store x s.ring
    · intro hc
      rw [Ring.toList_store]
      exact hi.filled hc
    · intro y hy
      -- the consumer reads another slot than the one written
      have hy' : s.consumer = .loaded y := hy
      have hne := tail_ne_head (hi.filled (by simp [hy']))
      have hb : (s.ring.store x).buf s.ring.tail = s.ring.buf s.ring.tail :=
        Function.update_of_ne hne _ _
      exact hb.trans (hi.loaded y hy)
  | advanceHead x hp =>
    have hr := hi.room (by simp [hp])
    have hl := Ring.toList_advanceHead hn hr
    rw [hi.stored x hp] at hl
    refine ⟨?_, ?_, hi.tail, fun hc => absurd rfl hc, nofun, ?_, hi.loaded⟩
    · simp only [hl, hi.queue, List.append_assoc]
    · simp only [Ring.advanceHead, hi.head, next_after_zero, List.length_append,
        List.length_singleton]
    · intro _
      rw [hl]
      exact List.append_ne_nil_of_right_ne_nil _ (List.cons_ne_nil _ _)
  | refusedOut hc he => exact hi
  | testEmpty hc he =>
    exact ⟨hi.queue, hi.head, hi.tail, hi.room, hi.stored,
      fun _ => (Ring.empty_eq_false_iff _).mp he, nofun⟩
  | load hc =>
    refine ⟨hi.queue, hi.head, hi.tail, hi.room, hi.stored,
      fun _ => hi.filled (by simp [hc]), ?_⟩
    intro y hy
    exact Consumer.loaded.inj hy
  | advanceTail x hc =>
    have hl := Ring.toList_advanceTail hn (hi.filled (by simp [hc]))
    rw [hi.loaded x hc] at hl
    refine ⟨?_, hi.head, ?_, ?_, hi.stored, fun hc => absurd rfl hc, nofun⟩
    · simp only [hi.queue, hl, List.append_assoc, List.singleton_append]
    · simp only [Ring.advanceTail, hi.tail, next_after_zero, List.length_append,
        List.length_singleton]
    · intro hp
      refine Ring.full_of_length_le hn (hi.room hp) ?_
      rw [hl, List.length_cons]
      exact Nat.le_succ _

/-- Every element that was accepted and not yet returned is still in the slot
that it was stored into. -/
theorem Inv.unread {s : State n α} (hi : Inv s) {j : Nat} (hj : s.returned.length ≤ j)
    (hj' : j < s.accepted.length) :
    s.ring.buf (Ring.after 0 j) = s.accepted[j] := by
  have hlen : s.accepted.length = s.returned.length + s.ring.size := by
    rw [hi.queue, List.length_append, Ring.length_toList]
  have hslot : Ring.after (0 : Fin n) j = Ring.after s.ring.tail (j - s.returned.length) := by
    apply Fin.ext
    rw [hi.tail]
    simp only [Ring.after, Fin.val_zero, Nat.zero_add, Nat.mod_add_mod]
    congr 1
    omega
  simp only [hi.queue]
  rw [List.getElem_append_right hj]
  simp only [Ring.toList, List.getElem_map, List.getElem_range, hslot]

/-- A ring is full of elements that the consumer has yet to return. -/
theorem Inv.length_of_full (hn : 1 < n) {s : State n α} (hi : Inv s) (hf : s.ring.full = true) :
    s.accepted.length = s.returned.length + (n - 1) := by
  have hl := (Ring.full_iff_length s.ring hn).mp hf
  rw [hi.queue, List.length_append]
  omega

theorem Inv.returned_of_empty {s : State n α} (hi : Inv s) (he : s.ring.empty = true) :
    s.accepted = s.returned := by
  have hnil : s.ring.toList = [] := by
    rw [← List.length_eq_zero_iff, Ring.length_toList]
    exact (Ring.empty_iff _).mp he
  rw [hi.queue, hnil, List.append_nil]

end Spsc

end MeikoCs2
