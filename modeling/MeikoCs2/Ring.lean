import Mathlib.Tactic.Common
import Mathlib.Algebra.Order.Ring.Int
import Mathlib.Logic.Function.Basic

/-! A ring buffer with one slot kept free, and the bounded first-in first-out
list it represents. The indices are elements of `Fin n`, so they cannot leave
the buffer. -/

namespace MeikoCs2

structure Ring (n : Nat) (α : Type) where
  buf : Fin n → α
  head : Fin n
  tail : Fin n

namespace Ring

variable {n : Nat} {α : Type}

def after (i : Fin n) (k : Nat) : Fin n := ⟨(i.val + k) % n, Nat.mod_lt _ i.pos⟩

def next (i : Fin n) : Fin n := after i 1

def full (r : Ring n α) : Bool := next r.head == r.tail

def empty (r : Ring n α) : Bool := r.head == r.tail

def size (r : Ring n α) : Nat :=
  if r.tail.val ≤ r.head.val then r.head.val - r.tail.val
  else n - r.tail.val + r.head.val

def room (r : Ring n α) : Nat :=
  if r.tail.val ≤ r.head.val then n - r.head.val + r.tail.val - 1
  else r.tail.val - r.head.val - 1

def put (x : α) (r : Ring n α) : Ring n α × Bool :=
  if r.full then (r, false)
  else ({ r with buf := Function.update r.buf r.head x, head := next r.head }, true)

def get (r : Ring n α) : Option (α × Ring n α) :=
  if r.empty then none else some (r.buf r.tail, { r with tail := next r.tail })

def clear [NeZero n] (r : Ring n α) : Ring n α := { r with head := 0, tail := 0 }

/-- The elements between tail and head, oldest first. -/
def toList (r : Ring n α) : List α := (List.range r.size).map fun k => r.buf (after r.tail k)

theorem after_val (i : Fin n) {k : Nat} (hk : k < n) :
    (after i k).val = if i.val + k < n then i.val + k else i.val + k - n := by
  have hi := i.isLt
  simp only [after]
  split_ifs with h
  · exact Nat.mod_eq_of_lt h
  · rw [Nat.mod_eq_sub_mod (by omega), Nat.mod_eq_of_lt (by omega)]

theorem after_zero (i : Fin n) : after i 0 = i := by
  apply Fin.ext
  simp [after, Nat.mod_eq_of_lt i.isLt]

theorem after_next (i : Fin n) (k : Nat) : after (next i) k = after i (k + 1) := by
  apply Fin.ext
  simp [after, next, Nat.add_assoc, Nat.add_comm 1 k]

theorem next_val (i : Fin n) (hn : 1 < n) :
    (next i).val = if i.val + 1 < n then i.val + 1 else 0 := by
  have hi := i.isLt
  rw [next, after_val i hn]
  split_ifs <;> omega

theorem size_lt (r : Ring n α) : r.size < n := by
  have := r.head.isLt
  have := r.tail.isLt
  unfold size
  split_ifs <;> omega

@[simp] theorem length_toList (r : Ring n α) : r.toList.length = r.size := by
  simp [toList]

theorem after_size (r : Ring n α) : after r.tail r.size = r.head := by
  apply Fin.ext
  rw [after_val r.tail r.size_lt]
  have := r.head.isLt
  have := r.tail.isLt
  unfold size
  split_ifs <;> omega

theorem after_ne (i : Fin n) {k l : Nat} (hk : k < l) (hl : l < n) : after i k ≠ after i l := by
  intro h
  have hv := congrArg Fin.val h
  rw [after_val i (Nat.lt_trans hk hl), after_val i hl] at hv
  have := i.isLt
  split_ifs at hv <;> omega

theorem empty_iff (r : Ring n α) : r.empty = true ↔ r.size = 0 := by
  simp only [empty, beq_iff_eq, Fin.ext_iff]
  have := r.head.isLt
  have := r.tail.isLt
  unfold size
  split_ifs <;> omega

theorem full_iff (r : Ring n α) (hn : 1 < n) : r.full = true ↔ r.size + 1 = n := by
  simp only [full, beq_iff_eq, Fin.ext_iff]
  rw [next_val r.head hn]
  have := r.head.isLt
  have := r.tail.isLt
  unfold size
  split_ifs <;> omega

theorem room_eq (r : Ring n α) : r.room = n - 1 - r.size := by
  have := r.head.isLt
  have := r.tail.isLt
  unfold room size
  split_ifs <;> omega

theorem put_of_full {r : Ring n α} (h : r.full = true) (x : α) : r.put x = (r, false) := by
  simp [put, h]

theorem put_snd (x : α) (r : Ring n α) : (r.put x).2 = !r.full := by
  unfold put
  split_ifs with h <;> simp [h]

theorem size_put {r : Ring n α} (hn : 1 < n) (h : r.full = false) (x : α) :
    (r.put x).1.size = r.size + 1 := by
  have hf : ¬ r.size + 1 = n := by
    rw [← full_iff r hn, h]
    simp
  have := r.head.isLt
  have := r.tail.isLt
  simp only [put, h, Bool.false_eq_true, if_false]
  unfold size at hf ⊢
  simp only [next_val r.head hn]
  split_ifs at hf ⊢ <;> omega

theorem toList_put {r : Ring n α} (hn : 1 < n) (h : r.full = false) (x : α) :
    (r.put x).1.toList = r.toList ++ [x] := by
  have hs := size_put hn h x
  have hf : r.size + 1 ≠ n := by
    intro he
    rw [(full_iff r hn).mpr he] at h
    exact absurd h (by simp)
  have hlt := r.size_lt
  rw [toList, hs, List.range_succ, List.map_append, toList]
  simp only [put, h, Bool.false_eq_true, if_false, List.map_cons, List.map_nil]
  congr 1
  · apply List.map_congr_left
    intro k hk
    have hne : after r.tail k ≠ r.head := by
      rw [← r.after_size]
      exact after_ne r.tail (List.mem_range.mp hk) hlt
    exact Function.update_of_ne hne _ _
  · rw [r.after_size, Function.update_self]

theorem get_eq_none_iff (r : Ring n α) : r.get = none ↔ r.toList = [] := by
  rw [← List.length_eq_zero_iff, length_toList, ← empty_iff]
  unfold get
  split_ifs with h <;> simp [h]

theorem toList_of_get (hn : 1 < n) {r r' : Ring n α} {x : α} (h : r.get = some (x, r')) :
    r.toList = x :: r'.toList := by
  unfold get at h
  split_ifs at h with he
  simp only [Option.some.injEq, Prod.mk.injEq] at h
  obtain ⟨rfl, rfl⟩ := h
  have hs : r.size = Ring.size { r with tail := next r.tail } + 1 := by
    have h0 : ¬ r.size = 0 := fun hz => he ((empty_iff r).mpr hz)
    have := r.head.isLt
    have := r.tail.isLt
    unfold size at h0 ⊢
    simp only [next_val r.tail hn]
    split_ifs at h0 ⊢ <;> omega
  rw [toList, hs, List.range_succ_eq_map, List.map_cons, after_zero, List.map_map, toList]
  congr 1
  apply List.map_congr_left
  intro k _
  simp only [Function.comp, after_next, Nat.succ_eq_add_one]

@[simp] theorem toList_clear [NeZero n] (r : Ring n α) : r.clear.toList = [] := by
  simp [toList, clear, size]

/-! The elementary steps of inserting and removing. -/

def store (x : α) (r : Ring n α) : Ring n α := { r with buf := Function.update r.buf r.head x }

def advanceHead (r : Ring n α) : Ring n α := { r with head := next r.head }

def advanceTail (r : Ring n α) : Ring n α := { r with tail := next r.tail }

theorem put_eq {r : Ring n α} (h : r.full = false) (x : α) :
    r.put x = ((r.store x).advanceHead, true) := by
  rw [put, h]
  rfl

theorem get_eq {r : Ring n α} (h : r.empty = false) :
    r.get = some (r.buf r.tail, r.advanceTail) := by
  rw [get, h]
  rfl

theorem empty_eq_false_iff (r : Ring n α) : r.empty = false ↔ r.toList ≠ [] := by
  rw [Bool.eq_false_iff, ne_eq, ne_eq, empty_iff, ← length_toList, List.length_eq_zero_iff]

/-- The slot at the head is not part of the list. -/
@[simp] theorem toList_store (x : α) (r : Ring n α) : (r.store x).toList = r.toList := by
  apply List.map_congr_left
  intro k hk
  have hne : after r.tail k ≠ r.head := by
    rw [← r.after_size]
    exact after_ne r.tail (List.mem_range.mp hk) r.size_lt
  exact Function.update_of_ne hne _ _

@[simp] theorem full_store (x : α) (r : Ring n α) : (r.store x).full = r.full := rfl

@[simp] theorem buf_store (x : α) (r : Ring n α) : (r.store x).buf r.head = x :=
  Function.update_self ..

theorem toList_advanceHead {r : Ring n α} (hn : 1 < n) (h : r.full = false) :
    r.advanceHead.toList = r.toList ++ [r.buf r.head] := by
  have hs : r.store (r.buf r.head) = r := by
    simp only [store, Function.update_eq_self]
  have hp := toList_put hn h (r.buf r.head)
  rwa [put_eq h, hs] at hp

theorem toList_advanceTail {r : Ring n α} (hn : 1 < n) (h : r.toList ≠ []) :
    r.toList = r.buf r.tail :: r.advanceTail.toList :=
  toList_of_get hn (get_eq ((empty_eq_false_iff r).mpr h))

/-- Removing moves the tail only. -/
theorem get_frame {r r' : Ring n α} {x : α} (h : r.get = some (x, r')) :
    r'.buf = r.buf ∧ r'.head = r.head := by
  unfold get at h
  split_ifs at h
  rw [← (Prod.mk.inj (Option.some.inj h)).2]
  exact ⟨rfl, rfl⟩

theorem full_iff_length (r : Ring n α) (hn : 1 < n) :
    r.full = true ↔ r.toList.length + 1 = n := by
  rw [full_iff r hn, length_toList]

/-- Of two rings, the one with the shorter list is not full. -/
theorem full_of_length_le {r r' : Ring n α} (hn : 1 < n) (h : r.full = false)
    (hl : r'.toList.length ≤ r.toList.length) : r'.full = false := by
  rw [Bool.eq_false_iff, ne_eq, full_iff_length r' hn]
  rw [Bool.eq_false_iff, ne_eq, full_iff_length r hn] at h
  have := r.size_lt
  simp only [length_toList] at h hl ⊢
  omega

end Ring

end MeikoCs2
