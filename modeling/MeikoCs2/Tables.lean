import Mathlib.Tactic.Common
import Mathlib.Algebra.Order.Ring.Int
import Mathlib.Data.List.Nodup

/-! Rows found by a key: the scan that stops at the first row, the scan that
keeps the last one, and what two lookups make of each other when both keys are
unique. -/

namespace MeikoCs2

variable {α κ ι : Type} {key : α → κ} {l : List α}

/-- `get` returns the row that has the key, if there is one. -/
def Finds (key : α → κ) (l : List α) (get : κ → Option α) : Prop :=
  ∀ k x, get k = some x ↔ x ∈ l ∧ key x = k

def firstRow [DecidableEq κ] (key : α → κ) (l : List α) (k : κ) : Option α :=
  l.find? fun x => key x = k

def lastRow [DecidableEq κ] (key : α → κ) (l : List α) (k : κ) : Option α :=
  l.foldl (fun found x => if key x = k then some x else found) none

namespace Finds

variable {key' : α → ι} {get : κ → Option α} {get' : ι → Option α}

theorem eq_none_iff (h : Finds key l get) (k : κ) : get k = none ↔ ∀ x ∈ l, key x ≠ k := by
  constructor
  · intro hn x hx hk
    rw [(h k x).mpr ⟨hx, hk⟩] at hn
    cases hn
  · intro hk
    rw [Option.eq_none_iff_forall_ne_some]
    intro x hx
    obtain ⟨hm, he⟩ := (h k x).mp hx
    exact hk x hm he

theorem back (h : Finds key l get) (h' : Finds key' l get') {k : κ} {x : α}
    (hx : get k = some x) : get' (key' x) = some x :=
  (h' (key' x) x).mpr ⟨((h k x).mp hx).1, rfl⟩

end Finds

variable [DecidableEq κ]

theorem firstRow_finds (h : (l.map key).Nodup) : Finds key l (firstRow key l) := by
  intro k x
  constructor
  · intro hf
    exact ⟨List.mem_of_find?_eq_some hf, by simpa using List.find?_some hf⟩
  · rintro ⟨hx, hk⟩
    cases hf : firstRow key l k with
    | none =>
      have hn := List.find?_eq_none.mp hf x hx
      exact absurd (by simpa using hk) hn
    | some y =>
      have hy : key y = k := by simpa using List.find?_some hf
      have hm : y ∈ l := List.mem_of_find?_eq_some hf
      rw [List.inj_on_of_nodup_map h hm hx (hy.trans hk.symm)]

theorem lastRow_eq (key : α → κ) (l : List α) (k : κ) :
    lastRow key l k = firstRow key l.reverse k := by
  have hf (found : Option α) :
      l.foldl (fun found x => if key x = k then some x else found) found =
        (firstRow key l.reverse k).or found := by
    induction l generalizing found with
    | nil => rfl
    | cons x l ih =>
      rw [List.foldl_cons, ih, firstRow, firstRow, List.reverse_cons, List.find?_append,
        Option.or_assoc]
      by_cases hk : key x = k <;> simp [hk]
  rw [lastRow, hf, Option.or_none]

theorem lastRow_finds (h : (l.map key).Nodup) : Finds key l (lastRow key l) := by
  have hr : (l.reverse.map key).Nodup := by
    rw [List.map_reverse]
    exact List.nodup_reverse.mpr h
  intro k x
  rw [lastRow_eq, firstRow_finds hr k x, List.mem_reverse]

end MeikoCs2
