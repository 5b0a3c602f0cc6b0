import Mathlib.Tactic.Common
import Mathlib.Algebra.Order.Ring.Int

/-! First fit over numbered slots: the least slot from a start that is not in
use. -/

namespace MeikoCs2

/-- Look at `k` slots from `i` on. -/
def firstFree (used : Nat → Bool) : Nat → Nat → Option Nat
  | 0, _ => none
  | k + 1, i => if used i then firstFree used k (i + 1) else some i

variable {used : Nat → Bool} {k i j : Nat}

theorem firstFree_spec (h : firstFree used k i = some j) :
    i ≤ j ∧ j < i + k ∧ used j = false ∧ ∀ l, i ≤ l → l < j → used l = true := by
  induction k generalizing i with
  | zero => cases h
  | succ k ih =>
    unfold firstFree at h
    split_ifs at h with hu
    · obtain ⟨h₁, h₂, h₃, h₄⟩ := ih h
      refine ⟨by omega, by omega, h₃, ?_⟩
      intro l hl hlj
      by_cases he : l = i
      · rw [he]
        exact hu
      · exact h₄ l (by omega) hlj
    · obtain rfl := Option.some.inj h
      exact ⟨Nat.le_refl _, by omega, by simpa using hu, fun l hl hlj => by omega⟩

theorem firstFree_none (h : firstFree used k i = none) {l : Nat} (hl : i ≤ l) (hlk : l < i + k) :
    used l = true := by
  induction k generalizing i with
  | zero => omega
  | succ k ih =>
    unfold firstFree at h
    split_ifs at h with hu
    by_cases he : l = i
    · rw [he]
      exact hu
    · exact ih h (by omega) (by omega)

/-- The slots that are not in use, the lowest first. -/
def freeSlots (used : Nat → Bool) (k i : Nat) : List Nat :=
  (List.range' i k).filter fun j => !used j

theorem mem_freeSlots : j ∈ freeSlots used k i ↔ (i ≤ j ∧ j < i + k) ∧ used j = false := by
  rw [freeSlots, List.mem_filter, List.mem_range'_1, Bool.not_eq_true']

theorem freeSlots_nodup (used : Nat → Bool) (k i : Nat) : (freeSlots used k i).Nodup :=
  (List.nodup_range' 1 (by decide)).filter _

theorem firstFree_eq_head (used : Nat → Bool) (k i : Nat) :
    firstFree used k i = (freeSlots used k i).head? := by
  induction k generalizing i with
  | zero => rfl
  | succ k ih =>
    rw [firstFree, freeSlots, List.range'_succ]
    cases hu : used i with
    | true =>
      rw [List.filter_cons_of_neg (by simp [hu]), if_pos rfl]
      exact ih (i + 1)
    | false =>
      rw [List.filter_cons_of_pos (by simp [hu]), List.head?_cons]
      exact if_neg Bool.false_ne_true

/-- The lowest free slot goes into use. -/
theorem freeSlots_tail {used' : Nat → Bool} {rest : List Nat}
    (hf : freeSlots used k i = j :: rest) (hj : used' j = true)
    (ho : ∀ l, l ≠ j → used' l = used l) : freeSlots used' k i = rest := by
  have hnd := freeSlots_nodup used k i
  rw [hf, List.nodup_cons] at hnd
  have hfilter : freeSlots used' k i = (freeSlots used k i).filter fun l => l != j := by
    rw [freeSlots, freeSlots, List.filter_filter]
    apply List.filter_congr
    intro l _
    by_cases hl : l = j
    · subst hl
      simp [hj]
    · simp [ho l hl, hl]
  rw [hfilter, hf, List.filter_cons_of_neg (by simp)]
  apply List.filter_eq_self.mpr
  intro l hl
  have hne : l ≠ j := by
    rintro rfl
    exact hnd.1 hl
  exact bne_iff_ne.mpr hne

end MeikoCs2
