import Mathlib.Algebra.Order.Ring.Int
import Mathlib.Data.List.Rotate

/-! A list closed to a circle by a successor function, and the loop that links
its elements one after the other. -/

namespace MeikoCs2

variable {α : Type}

/-- `next` leads from each element to the one behind it, and from the last one
to the first. -/
def Circular (next : α → α) (ps : List α) : Prop :=
  ∀ (k : Nat) (x : α), ps[k]? = some x → ps[(k + 1) % ps.length]? = some (next x)

namespace Circular

variable {next : α → α} {ps : List α} {k : Nat} {x : α}

theorem iterate (h : Circular next ps) (hx : ps[k]? = some x) (m : Nat) :
    ps[(k + m) % ps.length]? = some (next^[m] x) := by
  induction m with
  | zero =>
    obtain ⟨hk, -⟩ := List.getElem?_eq_some_iff.mp hx
    rw [Nat.add_zero, Nat.mod_eq_of_lt hk]
    exact hx
  | succ m ih =>
    have hn := h _ _ ih
    rw [Nat.mod_add_mod] at hn
    rw [Function.iterate_succ_apply']
    exact hn

end Circular

/-- Links under construction: the successors so far, and the two ends. -/
structure Links (α : Type) where
  next : α → α
  first : Option α
  prev : Option α

namespace Links

variable {l : Links α} {ps : List α} {x : α}

/-- The links lead through `ps` from its head to its last element. -/
structure Chain (l : Links α) (ps : List α) : Prop where
  first : l.first = ps.head?
  prev : l.prev = ps.getLast?
  next : ∀ k x y, ps[k]? = some x → ps[k + 1]? = some y → l.next x = y

/-- Elements of a list without duplicates, before its last one. -/
theorem ne_last {qs : List α} {p y : α} {k : Nat} (hnd : (qs ++ [p]).Nodup)
    (hk : k < qs.length) (hy : (qs ++ [p])[k]? = some y) : y ≠ p := by
  rw [List.getElem?_append_left hk] at hy
  exact (List.nodup_append.mp hnd).2.2 y (List.mem_of_getElem? hy) p (List.mem_singleton_self p)

variable [DecidableEq α]

def add (x : α) (l : Links α) : Links α where
  next :=
    match l.prev with
    | some p => Function.update l.next p x
    | none => l.next
  first := l.first.or (some x)
  prev := some x

/-- The last element is linked to the first. -/
def close (l : Links α) : α → α :=
  match l.prev, l.first with
  | some p, some f => Function.update l.next p f
  | _, _ => l.next

theorem Chain.add (h : Chain l ps) (hnd : ps.Nodup) : Chain (l.add x) (ps ++ [x]) := by
  rcases List.eq_nil_or_concat ps with rfl | ⟨qs, p, rfl⟩
  · refine ⟨by simp [Links.add, h.first], rfl, fun k y z hy hz => ?_⟩
    obtain ⟨hk, -⟩ := List.getElem?_eq_some_iff.mp hz
    simp at hk
  · have hp : l.prev = some p := by rw [h.prev, List.concat_eq_append, List.getLast?_concat]
    rw [List.concat_eq_append] at h hnd
    rw [List.concat_eq_append]
    refine ⟨?_, by simp [Links.add], fun k y z hy hz => ?_⟩
    · simp only [Links.add, h.first]
      cases qs <;> rfl
    · have hk : k < qs.length + 1 := by
        obtain ⟨hk, -⟩ := List.getElem?_eq_some_iff.mp hz
        simpa using hk
      rw [List.getElem?_append_left (by simpa using hk)] at hy
      simp only [Links.add, hp]
      by_cases hlast : k = qs.length
      · subst hlast
        rw [List.getElem?_concat_length] at hy
        cases hy
        have hz' : (qs ++ [p] ++ [x])[(qs ++ [p]).length]? = some z := by simpa using hz
        rw [List.getElem?_concat_length] at hz'
        cases hz'
        exact Function.update_self _ _ _
      · have hlt : k < qs.length := by omega
        rw [Function.update_of_ne (ne_last hnd hlt hy)]
        rw [List.getElem?_append_left (by simpa using hlt)] at hz
        exact h.next k y z hy hz

theorem Chain.close (h : Chain l ps) (hnd : ps.Nodup) : Circular l.close ps := by
  rcases List.eq_nil_or_concat ps with rfl | ⟨qs, p, rfl⟩
  · intro k x hx
    cases hx
  · have hp : l.prev = some p := by rw [h.prev, List.concat_eq_append, List.getLast?_concat]
    rw [List.concat_eq_append] at h hnd
    rw [List.concat_eq_append]
    obtain ⟨f, hf⟩ : ∃ f, (qs ++ [p]).head? = some f :=
      ⟨_, List.head?_eq_some_head (List.append_ne_nil_of_right_ne_nil qs (List.cons_ne_nil p []))⟩
    have hfirst := h.first.trans hf
    intro k y hy
    have hk : k < qs.length + 1 := by
      obtain ⟨hk, -⟩ := List.getElem?_eq_some_iff.mp hy
      simpa using hk
    have hlen : (qs ++ [p]).length = qs.length + 1 := List.length_append
    simp only [Links.close, hp, hfirst]
    by_cases hlast : k = qs.length
    · subst hlast
      rw [List.getElem?_concat_length] at hy
      cases hy
      rw [hlen, Nat.mod_self, Function.update_self, ← List.head?_eq_getElem?]
      exact hf
    · have hlt : k < qs.length := by omega
      rw [Function.update_of_ne (ne_last hnd hlt hy), hlen, Nat.mod_eq_of_lt (by omega)]
      obtain ⟨z, hz⟩ : ∃ z, (qs ++ [p])[k + 1]? = some z :=
        ⟨_, List.getElem?_eq_getElem (by omega)⟩
      rw [hz, h.next k y z hy hz]

end Links

end MeikoCs2
