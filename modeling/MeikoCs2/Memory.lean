import Mathlib.Tactic.Common
import Mathlib.Algebra.Order.Ring.Int
import Mathlib.Logic.Function.Basic

/-! Memory as a function of the address, the list that a range of it holds, and
what a store behind the range and an overlapping move make of that list. -/

namespace MeikoCs2

variable {α : Type}

def cells (m : Nat → α) (a n : Nat) : List α := (List.range n).map fun i => m (a + i)

/-- All cells are read before any is written, so the ranges may overlap. -/
def memmove (dst src n : Nat) (m : Nat → α) (i : Nat) : α :=
  if dst ≤ i ∧ i < dst + n then m (src + (i - dst)) else m i

@[simp] theorem cells_zero (m : Nat → α) (a : Nat) : cells m a 0 = [] := rfl

@[simp] theorem length_cells (m : Nat → α) (a n : Nat) : (cells m a n).length = n := by
  simp [cells]

theorem cells_add (m : Nat → α) (a n k : Nat) :
    cells m a (n + k) = cells m a n ++ cells m (a + n) k := by
  simp only [cells, List.range_add, List.map_append, List.map_map]
  congr 1
  apply List.map_congr_left
  intro i _
  simp only [Function.comp, Nat.add_assoc]

theorem cells_succ (m : Nat → α) (a n : Nat) : cells m a (n + 1) = cells m a n ++ [m (a + n)] :=
  cells_add m a n 1

theorem cells_update (m : Nat → α) (a n : Nat) (x : α) :
    cells (Function.update m (a + n) x) a (n + 1) = cells m a n ++ [x] := by
  rw [cells_succ, Function.update_self]
  congr 1
  apply List.map_congr_left
  intro i hi
  have hlt := List.mem_range.mp hi
  exact Function.update_of_ne (by omega) _ _

theorem cells_memmove (m : Nat → α) (dst src n : Nat) :
    cells (memmove dst src n m) dst n = cells m src n := by
  apply List.map_congr_left
  intro i hi
  have hlt := List.mem_range.mp hi
  rw [memmove, if_pos (by omega), Nat.add_sub_cancel_left]

end MeikoCs2
