import Mathlib.Logic.Function.Basic
import Mathlib.Tactic.Common
import Mathlib.Algebra.Order.Ring.Int

/-! Numbered requests that may name a resource. Everybody may receive a request,
and who holds the resource may answer it; a central party answers those that
nobody holds. If nobody acquires a resource while a request that names it is in
his box, no such request is answered twice. -/

namespace MeikoCs2

section Update

variable {P α : Type} [DecidableEq P] {f : P → Option α} {p q : P} {a b : α}

theorem update_some_eq_some (h : Function.update f p (some b) q = some a) :
    (q = p ∧ a = b) ∨ (q ≠ p ∧ f q = some a) := by
  rcases eq_or_ne q p with rfl | hne
  · rw [Function.update_self, Option.some.injEq] at h
    exact .inl ⟨rfl, h.symm⟩
  · rw [Function.update_of_ne hne] at h
    exact .inr ⟨hne, h⟩

theorem update_none_eq_some (h : Function.update f p none q = some a) :
    q ≠ p ∧ f q = some a := by
  rcases eq_or_ne q p with rfl | hne
  · rw [Function.update_self] at h
    cases h
  · rw [Function.update_of_ne hne] at h
    exact ⟨hne, h⟩

end Update

/-- Request `k` names `names[k]`, and every answer to it is an entry `k` of
`acks`. -/
structure Roster (P X : Type) where
  holds : P → Option X
  box : P → List Nat
  names : List (Option X)
  acks : List Nat

namespace Roster

variable {P X : Type}

/-- `spent` says that the holder of a resource has none of the answered requests
for it left in his box. -/
structure Inv (r : Roster P X) : Prop where
  unique : ∀ p q x, r.holds p = some x → r.holds q = some x → p = q
  nodup : ∀ p, (r.box p).Nodup
  boxed : ∀ p, ∀ k ∈ r.box p, k < r.names.length
  acked : ∀ k ∈ r.acks, k < r.names.length
  once : ∀ k x, r.names[k]? = some (some x) → r.acks.count k ≤ 1
  spent : ∀ k x p, r.names[k]? = some (some x) → k ∈ r.acks → r.holds p = some x → k ∉ r.box p

theorem Inv.start : Inv (⟨fun _ => none, fun _ => [], [], []⟩ : Roster P X) := by
  constructor <;> simp

variable {r r' : Roster P X}

theorem Inv.deliver (hi : Inv r) {o : Option X} (dst : P → Bool) {m : Nat}
    (h : ∀ x, o = some x → m ≤ 1 ∧ (m ≠ 0 → ∀ p, r.holds p ≠ some x)) :
    Inv { r with
      box := fun p => if dst p then r.box p ++ [r.names.length] else r.box p
      names := r.names ++ [o]
      acks := r.acks ++ List.replicate m r.names.length } := by
  have hnew : ∀ p, r.names.length ∉ r.box p := fun p hm => absurd (hi.boxed p _ hm) (by omega)
  have hold : ∀ k, k < r.names.length → ∀ n, (r.acks ++ List.replicate n r.names.length).count k =
      r.acks.count k := fun k hk n => by
    rw [List.count_append, List.count_replicate, if_neg (by simp; omega), Nat.add_zero]
  have hcases : ∀ k x, (r.names ++ [o])[k]? = some (some x) →
      (k < r.names.length ∧ r.names[k]? = some (some x)) ∨
        (k = r.names.length ∧ o = some x) := fun k x hk => by
    rcases Nat.lt_or_ge k r.names.length with hlt | hge
    · rw [List.getElem?_append_left hlt] at hk
      exact .inl ⟨hlt, hk⟩
    · have hk' : k < (r.names ++ [o]).length := (List.getElem?_eq_some_iff.mp hk).1
      obtain rfl : k = r.names.length := by
        rw [List.length_append, List.length_singleton] at hk'
        omega
      exact .inr ⟨rfl, by simpa using hk⟩
  refine ⟨hi.unique, fun p => ?_, fun p k hk => ?_, fun k hk => ?_, fun k x hk => ?_,
    fun k x p hk hm hp => ?_⟩
  · simp only
    split_ifs
    · exact List.nodup_append.mpr ⟨hi.nodup p, by simp, fun a ha b hb => by
        rintro rfl
        exact hnew p (List.mem_singleton.mp hb ▸ ha)⟩
    · exact hi.nodup p
  · rw [List.length_append, List.length_singleton]
    simp only at hk
    split_ifs at hk
    · rcases List.mem_append.mp hk with hk | hk
      · exact Nat.lt_succ_of_lt (hi.boxed p k hk)
      · rw [List.mem_singleton.mp hk]
        exact Nat.lt_succ_self _
    · exact Nat.lt_succ_of_lt (hi.boxed p k hk)
  · rw [List.length_append, List.length_singleton]
    rcases List.mem_append.mp hk with hk | hk
    · exact Nat.lt_succ_of_lt (hi.acked k hk)
    · rw [List.eq_of_mem_replicate hk]
      exact Nat.lt_succ_self _
  · rcases hcases k x hk with ⟨hlt, hk⟩ | ⟨rfl, rfl⟩
    · rw [hold k hlt]
      exact hi.once k x hk
    · have h0 : r.acks.count r.names.length = 0 :=
        List.count_eq_zero.mpr fun hm => absurd (hi.acked _ hm) (by omega)
      rw [List.count_append, h0, List.count_replicate_self, Nat.zero_add]
      exact (h x rfl).1
  · rcases hcases k x hk with ⟨hlt, hk⟩ | ⟨rfl, rfl⟩
    · have hm' : k ∈ r.acks := by
        rcases List.mem_append.mp hm with hm | hm
        · exact hm
        · rw [List.eq_of_mem_replicate hm] at hlt
          omega
      have hnb := hi.spent k x p hk hm' hp
      simp only
      split_ifs
      · intro hb
        rcases List.mem_append.mp hb with hb | hb
        · exact hnb hb
        · rw [List.mem_singleton.mp hb] at hlt
          omega
      · exact hnb
    · -- an answer at once means that nobody holds what the request names
      have hm0 : m ≠ 0 := by
        rcases List.mem_append.mp hm with hm | hm
        · exact absurd (hi.acked _ hm) (by omega)
        · exact (List.mem_replicate.mp hm).1
      exact absurd hp ((h x rfl).2 hm0 p)

variable [DecidableEq P]

inductive Step (r : Roster P X) : Roster P X → Prop where
  -- a new request, answered `m` times by the central party
  | deliver (o : Option X) (dst : P → Bool) (m : Nat)
      (h : ∀ x, o = some x → m ≤ 1 ∧ (m ≠ 0 → ∀ p, r.holds p ≠ some x)) :
      Step r
        { r with
          box := fun p => if dst p then r.box p ++ [r.names.length] else r.box p
          names := r.names ++ [o]
          acks := r.acks ++ List.replicate m r.names.length }
  -- the next request in a box, answered or not
  | take (p : P) (k : Nat) (ks : List Nat) (acked : Bool) (hb : r.box p = k :: ks)
      (h : acked = true → ∀ x, r.names[k]? = some (some x) → r.holds p = some x) :
      Step r
        { r with
          box := Function.update r.box p ks
          acks := if acked then r.acks ++ [k] else r.acks }
  | acquire (p : P) (x : X) (hx : ∀ q, r.holds q ≠ some x)
      (hb : ∀ k ∈ r.box p, r.names[k]? ≠ some (some x)) :
      Step r { r with holds := Function.update r.holds p (some x) }
  | leave (p : P) :
      Step r
        { r with
          holds := Function.update r.holds p none
          box := Function.update r.box p [] }

theorem Inv.take (hi : Inv r) {p : P} {k : Nat} {ks : List Nat} (hb : r.box p = k :: ks)
    {acked : Bool}
    (h : acked = true → ∀ x, r.names[k]? = some (some x) → r.holds p = some x) :
    Inv { r with
      box := Function.update r.box p ks
      acks := if acked then r.acks ++ [k] else r.acks } := by
  have hkp : k ∈ r.box p := hb ▸ List.mem_cons_self
  have hnd := hi.nodup p
  rw [hb, List.nodup_cons] at hnd
  have hsub : ∀ q, ∀ j ∈ Function.update r.box p ks q, j ∈ r.box q := fun q j hj => by
    rcases eq_or_ne q p with rfl | hne
    · rw [Function.update_self] at hj
      rw [hb]
      exact List.mem_cons_of_mem _ hj
    · rwa [Function.update_of_ne hne] at hj
  refine ⟨hi.unique, fun q => ?_, fun q j hj => hi.boxed q j (hsub q j hj), fun j hj => ?_,
    fun j x hj => ?_, fun j x q hj hm hq hbox => ?_⟩
  · rcases eq_or_ne q p with rfl | hne
    · simpa using hnd.2
    · simpa [Function.update_of_ne hne] using hi.nodup q
  · simp only at hj
    split_ifs at hj
    · rcases List.mem_append.mp hj with hj | hj
      · exact hi.acked j hj
      · rw [List.mem_singleton.mp hj]
        exact hi.boxed p k hkp
    · exact hi.acked j hj
  · simp only
    split_ifs with ha
    · rcases eq_or_ne j k with rfl | hne
      · -- it was in the box of the holder, so it had not been answered
        have hn : j ∉ r.acks := fun hm => hi.spent j x p hj hm (h ha x hj) hkp
        have h1 : (r.acks ++ [j]).count j = 1 := by
          rw [List.count_append, List.count_eq_zero.mpr hn, List.count_singleton_self]
        omega
      · rw [List.count_append, List.count_singleton, if_neg (by simpa using hne.symm), Nat.add_zero]
        exact hi.once j x hj
    · exact hi.once j x hj
  · have hjq := hsub q j hbox
    simp only at hm
    split_ifs at hm with ha
    · rcases List.mem_append.mp hm with hm | hm
      · exact hi.spent j x q hj hm hq hjq
      · obtain rfl := List.mem_singleton.mp hm
        obtain rfl := hi.unique q p x hq (h ha x hj)
        simp only [Function.update_self] at hbox
        exact hnd.1 hbox
    · exact hi.spent j x q hj hm hq hjq

theorem Inv.acquire (hi : Inv r) {p : P} {x : X} (hx : ∀ q, r.holds q ≠ some x)
    (hb : ∀ k ∈ r.box p, r.names[k]? ≠ some (some x)) :
    Inv { r with holds := Function.update r.holds p (some x) } := by
  refine ⟨fun q q' y hq hq' => ?_, hi.nodup, hi.boxed, hi.acked, hi.once,
    fun k y q hk hm hq hbox => ?_⟩
  · rcases update_some_eq_some hq with ⟨rfl, rfl⟩ | ⟨_, h⟩
    · rcases update_some_eq_some hq' with ⟨he, _⟩ | ⟨_, h'⟩
      · exact he.symm
      · exact absurd h' (hx q')
    · rcases update_some_eq_some hq' with ⟨_, rfl⟩ | ⟨_, h'⟩
      · exact absurd h (hx q)
      · exact hi.unique q q' y h h'
  · rcases update_some_eq_some hq with ⟨rfl, rfl⟩ | ⟨_, hq⟩
    · exact hb k hbox hk
    · exact hi.spent k y q hk hm hq hbox

theorem Inv.leave (hi : Inv r) (p : P) :
    Inv { r with
      holds := Function.update r.holds p none
      box := Function.update r.box p [] } := by
  have hbox : ∀ q, ∀ j ∈ Function.update r.box p [] q, j ∈ r.box q := fun q j hj => by
    rcases eq_or_ne q p with rfl | hne
    · rw [Function.update_self] at hj
      cases hj
    · rwa [Function.update_of_ne hne] at hj
  refine ⟨fun q q' y hq hq' => ?_, fun q => ?_, fun q j hj => hi.boxed q j (hbox q j hj), hi.acked,
    hi.once, fun k y q hk hm hq hb => ?_⟩
  · exact hi.unique q q' y (update_none_eq_some hq).2 (update_none_eq_some hq').2
  · rcases eq_or_ne q p with rfl | hne
    · simp
    · simpa [Function.update_of_ne hne] using hi.nodup q
  · exact hi.spent k y q hk hm (update_none_eq_some hq).2 (hbox q k hb)

theorem Step.inv (h : Step r r') (hi : Inv r) : Inv r' := by
  cases h with
  | deliver o dst m h => exact hi.deliver dst h
  | take p k ks acked hb h => exact hi.take hb h
  | acquire p x hx hb => exact hi.acquire hx hb
  | leave p => exact hi.leave p

end Roster

end MeikoCs2
