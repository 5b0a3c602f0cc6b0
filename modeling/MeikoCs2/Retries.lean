import Mathlib.Data.List.Perm.Subperm
import Mathlib.Data.List.Range
import Mathlib.Tactic.Common
import Mathlib.Algebra.Order.Ring.Int

/-! Sending numbered items one after the other over a channel that may lose them
or their acknowledgements. An item is tried again after a timeout, and given up
after `max` tries. The items carry no number on the way, so the other end takes
each arrival for a new one. Here is what the arrivals tell, by the timeouts. -/

namespace MeikoCs2

def missing (item : Nat) (reached : List Nat) : Nat :=
  (List.range item).countP fun j => decide (j ∉ reached)

theorem missing_succ (item : Nat) (reached : List Nat) :
    missing (item + 1) reached = missing item reached + if item ∈ reached then 0 else 1 := by
  rw [missing, List.range_succ, List.countP_append, ← missing, List.countP_singleton]
  by_cases h : item ∈ reached <;> simp [h]

theorem countP_lt_succ (n : Nat) (l : List Nat) :
    l.countP (fun j => decide (j < n + 1)) = l.countP (fun j => decide (j < n)) + l.count n := by
  induction l with
  | nil => rfl
  | cons a l ih =>
    rw [List.countP_cons, List.countP_cons, List.count_cons, ih]
    simp only [decide_eq_true_eq, beq_iff_eq]
    split_ifs <;> omega

/-- Items that cost `max` timeouts each and never arrived. -/
theorem mul_missing_le {max item : Nat} {timeouts reached : List Nat}
    (h : ∀ j < item, j ∉ reached → timeouts.count j = max) :
    max * missing item reached ≤ timeouts.length := by
  suffices hlt : max * missing item reached ≤ timeouts.countP fun j => decide (j < item) from
    hlt.trans List.countP_le_length
  induction item with
  | zero => exact Nat.zero_le _
  | succ n ih =>
    have hn := ih fun j hj => h j (Nat.lt_succ_of_lt hj)
    rw [missing_succ, countP_lt_succ, Nat.mul_add]
    by_cases hm : n ∈ reached
    · rw [if_pos hm, Nat.mul_zero]
      exact Nat.le_add_right_of_le hn
    · rw [if_neg hm, Nat.mul_one, h n (Nat.lt_succ_self n) hm]
      exact Nat.add_le_add_right hn max

/-- Before a try of `item`, which has failed `failed` times: `timeouts` has the
item of each timeout and `reached` what has arrived, both oldest first. Each
arrival is the first of its item, or a timeout of that item stands for it. -/
structure Tally (max item failed : Nat) (timeouts reached : List Nat) : Prop where
  sorted : reached.Pairwise (· ≤ ·)
  paid : reached.Subperm (timeouts ++ List.range item)
  failed : timeouts.count item = failed
  tried : ∀ j ∈ timeouts, j ≤ item
  givenUp : ∀ j < item, j ∉ reached → timeouts.count j = max

/-- After a try of `item`, which has arrived or not. -/
def Tried (max item failed : Nat) (timeouts reached : List Nat) : Prop :=
  ∃ before, Tally max item failed timeouts before ∧
    (reached = before ∨ reached = before ++ [item])

namespace Tally

variable {max item failed : Nat} {timeouts reached : List Nat}

theorem start (max : Nat) : Tally max 0 0 [] [] where
  sorted := .nil
  paid := List.nil_subperm
  failed := rfl
  tried _ h := absurd h List.not_mem_nil
  givenUp _ h := absurd h (Nat.not_lt_zero _)

theorem le (h : Tally max item failed timeouts reached) {j : Nat} (hj : j ∈ reached) :
    j ≤ item := by
  rcases List.mem_append.mp (h.paid.subset hj) with ht | hr
  · exact h.tried j ht
  · exact (List.mem_range.mp hr).le

theorem lt (h : Tally max item 0 timeouts reached) {j : Nat} (hj : j ∈ reached) : j < item := by
  refine lt_of_le_of_ne (h.le hj) fun he => ?_
  rcases List.mem_append.mp (h.paid.subset hj) with ht | hr
  · rw [he] at ht
    exact List.count_eq_zero.mp h.failed ht
  · rw [he] at hr
    exact List.not_mem_range_self hr

theorem sorted_concat (h : Tally max item failed timeouts reached) :
    (reached ++ [item]).Pairwise (· ≤ ·) := by
  rw [List.pairwise_append]
  refine ⟨h.sorted, List.pairwise_singleton _ _, fun j hj k hk => ?_⟩
  rw [List.mem_singleton.mp hk]
  exact h.le hj

theorem paid_concat (h : Tally max item failed timeouts reached) :
    (reached ++ [item]).Subperm (timeouts ++ List.range (item + 1)) := by
  rw [List.range_succ, ← List.append_assoc]
  exact (List.subperm_append_right [item]).mpr h.paid

theorem fresh (h : Tally max item failed timeouts reached) : timeouts.count (item + 1) = 0 :=
  List.count_eq_zero.mpr fun hm => Nat.not_succ_le_self item (h.tried _ hm)

/-- The try has arrived and is acknowledged. -/
theorem acked (h : Tally max item failed timeouts reached) :
    Tally max (item + 1) 0 timeouts (reached ++ [item]) where
  sorted := h.sorted_concat
  paid := h.paid_concat
  failed := h.fresh
  tried j hj := Nat.le_succ_of_le (h.tried j hj)
  givenUp j hj hn := by
    rw [List.mem_append, List.mem_singleton, not_or] at hn
    exact h.givenUp j (lt_of_le_of_ne (Nat.le_of_lt_succ hj) hn.2) hn.1

theorem attempted (h : Tally max item failed timeouts reached) :
    Tried max item failed timeouts reached := ⟨reached, h, .inl rfl⟩

theorem arrived (h : Tally max item failed timeouts reached) :
    Tried max item failed timeouts (reached ++ [item]) := ⟨reached, h, .inr rfl⟩

/-- Without timeouts every item before has arrived, and none twice. -/
theorem exact (h : Tally max item failed [] reached) (hmax : 0 < max) :
    reached = List.range item := by
  have hsub : List.range item ⊆ reached := by
    intro j hj
    by_contra hn
    exact hmax.ne (h.givenUp j (List.mem_range.mp hj) hn)
  have hsp : (List.range item).Subperm reached := List.subperm_of_subset List.nodup_range hsub
  exact (h.paid.antisymm hsp).eq_of_pairwise (fun _ _ _ _ => Nat.le_antisymm) h.sorted
    (List.pairwise_lt_range.imp Nat.le_of_lt)

end Tally

namespace Tried

variable {max item failed : Nat} {timeouts reached : List Nat}

theorem sorted (h : Tried max item failed timeouts reached) : reached.Pairwise (· ≤ ·) := by
  obtain ⟨before, hb, rfl | rfl⟩ := h
  · exact hb.sorted
  · exact hb.sorted_concat

theorem paid (h : Tried max item failed timeouts reached) :
    reached.Subperm (timeouts ++ List.range (item + 1)) := by
  obtain ⟨before, hb, rfl | rfl⟩ := h
  · exact (List.prefix_append _ [item]).sublist.subperm.trans hb.paid_concat
  · exact hb.paid_concat

theorem le (h : Tried max item failed timeouts reached) {j : Nat} (hj : j ∈ reached) :
    j ≤ item := by
  obtain ⟨before, hb, rfl | rfl⟩ := h
  · exact hb.le hj
  · rcases List.mem_append.mp hj with hj | hj
    · exact hb.le hj
    · exact (List.mem_singleton.mp hj).le

theorem givenUp (h : Tried max item failed timeouts reached) {j : Nat} (hj : j < item)
    (hn : j ∉ reached) : timeouts.count j = max := by
  obtain ⟨before, hb, rfl | rfl⟩ := h
  · exact hb.givenUp j hj hn
  · exact hb.givenUp j hj fun hm => hn (List.mem_append_left _ hm)

/-- A timeout of `item` leaves the account of the items before as it is. -/
theorem late (h : Tried max item failed timeouts reached) :
    (timeouts ++ [item]).count item = failed + 1 ∧ (∀ j ∈ timeouts ++ [item], j ≤ item) ∧
      ∀ j < item, j ∉ reached → (timeouts ++ [item]).count j = max := by
  obtain ⟨before, hb, -⟩ := id h
  refine ⟨?_, fun j hj => ?_, fun j hj hn => ?_⟩
  · rw [List.count_append, hb.failed, List.count_singleton_self]
  · rcases List.mem_append.mp hj with hj | hj
    · exact hb.tried j hj
    · exact (List.mem_singleton.mp hj).le
  · have hne : j ∉ [item] := fun hm => hj.ne (List.mem_singleton.mp hm)
    rw [List.count_append, h.givenUp hj hn, List.count_eq_zero.mpr hne, Nat.add_zero]

/-- A timeout, and the item is tried again. -/
theorem retry (h : Tried max item failed timeouts reached) :
    Tally max item (failed + 1) (timeouts ++ [item]) reached := by
  obtain ⟨hfailed, htried, hgiven⟩ := h.late
  refine ⟨h.sorted, h.paid.trans (List.Perm.subperm ?_), hfailed, htried, hgiven⟩
  rw [List.range_succ, List.append_assoc]
  exact List.perm_append_comm.append_left timeouts

/-- The last timeout, and the item is given up. -/
theorem giveUp (h : Tried max item failed timeouts reached) (hf : failed + 1 = max) :
    Tally max (item + 1) 0 (timeouts ++ [item]) reached := by
  obtain ⟨hfailed, htried, hgiven⟩ := h.late
  refine ⟨h.sorted, h.paid.trans ?_, ?_, fun j hj => Nat.le_succ_of_le (htried j hj),
    fun j hj hn => ?_⟩
  · exact ((List.prefix_append timeouts [item]).sublist.append_right _).subperm
  · exact List.count_eq_zero.mpr fun hm => Nat.not_succ_le_self item (htried _ hm)
  · rcases Nat.lt_succ_iff_lt_or_eq.mp hj with hlt | rfl
    · exact hgiven j hlt hn
    · rw [hfailed, hf]

theorem exact (h : Tried max item failed [] reached) (hmax : 0 < max) :
    reached = List.range item ∨ reached = List.range (item + 1) := by
  obtain ⟨before, hb, rfl | rfl⟩ := h
  · exact .inl (hb.exact hmax)
  · rw [List.range_succ, ← hb.exact hmax]
    exact .inr rfl

end Tried

end MeikoCs2
