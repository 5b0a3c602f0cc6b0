import Mathlib.Tactic.Common
import Mathlib.Algebra.Order.Ring.Int

/-! Runs of a labelled step relation, with the state before each step, and the
induction rules for what holds along them and in the logs they leave. -/

namespace MeikoCs2

variable {σ ι : Type}

/-- `Run step s tr u`: the steps `tr`, each with the state it was taken in,
lead from `s` to `u`. -/
inductive Run (step : σ → ι → σ → Prop) (s : σ) : List (σ × ι) → σ → Prop where
  | nil : Run step s [] s
  | snoc {tr : List (σ × ι)} {t u : σ} {l : ι} :
      Run step s tr t → step t l u → Run step s (tr ++ [(t, l)]) u

namespace Run

variable {step : σ → ι → σ → Prop} {s u : σ} {tr : List (σ × ι)}

theorem invariant_of {P : σ → Prop} {ok : σ → ι → Prop} (h : Run step s tr u) (h0 : P s)
    (hs : ∀ t l v, P t → ok t l → step t l v → P v) (hok : ∀ x ∈ tr, ok x.1 x.2) : P u := by
  induction h with
  | nil => exact h0
  | snoc _ hst ih =>
    exact hs _ _ _ (ih fun x hx => hok x (List.mem_append_left _ hx))
      (hok _ (List.mem_append_right _ (List.mem_singleton_self _))) hst

theorem invariant {P : σ → Prop} (h : Run step s tr u) (h0 : P s)
    (hs : ∀ t l v, P t → step t l v → P v) : P u := by
  refine @invariant_of _ _ _ _ _ _ P (fun _ _ => True) h h0 ?_ fun _ _ => trivial
  exact fun t l v hp _ hst => hs t l v hp hst

/-- A run that breaks a property kept by every step that meets `ok` has a
step that does not meet `ok`, and up to it the property held. -/
theorem forall_ok_iff {P : σ → Prop} {ok : σ → ι → Prop} (h : Run step s tr u) (h0 : P s)
    (hs : ∀ t l v, P t → step t l v → (P v ↔ ok t l)) :
    ((∀ x ∈ tr, P x.1) ∧ P u) ↔ ∀ x ∈ tr, ok x.1 x.2 := by
  induction h with
  | nil => simpa using h0
  | @snoc tr t u l _ hst ih =>
    constructor
    · rintro ⟨htr, hu⟩ x hx
      have ht : P t := htr (t, l) (List.mem_append_right _ (List.mem_singleton_self _))
      rcases List.mem_append.mp hx with hx | hx
      · exact ih.mp ⟨fun y hy => htr y (List.mem_append_left _ hy), ht⟩ x hx
      · rw [List.mem_singleton.mp hx]
        exact (hs t l u ht hst).mp hu
    · intro hok
      have hi := ih.mpr fun x hx => hok x (List.mem_append_left _ hx)
      refine ⟨?_, (hs t l u hi.2 hst).mpr
        (hok (t, l) (List.mem_append_right _ (List.mem_singleton_self _)))⟩
      intro x hx
      rcases List.mem_append.mp hx with hx | hx
      · exact hi.1 x hx
      · rw [List.mem_singleton.mp hx]
        exact hi.2

theorem exists_next (h : Run step s tr u) : ∀ x ∈ tr, ∃ v, step x.1 x.2 v := by
  induction h with
  | nil => exact fun x hx => absurd hx List.not_mem_nil
  | snoc _ hst ih =>
    intro x hx
    rcases List.mem_append.mp hx with hx | hx
    · exact ih x hx
    · rw [List.mem_singleton.mp hx]
      exact ⟨_, hst⟩

theorem invariant_all {P : σ → Prop} (h : Run step s tr u) (h0 : P s)
    (hs : ∀ t l v, P t → step t l v → P v) : (∀ x ∈ tr, P x.1) ∧ P u := by
  have hi := @forall_ok_iff _ _ _ _ _ _ P (fun _ _ => True) h h0
    fun t l v ht hst => iff_of_true (hs t l v ht hst) trivial
  exact hi.mpr fun _ _ => trivial

end Run

inductive Path (step : σ → ι → σ → Prop) : σ → List ι → σ → Prop where
  | nil (s : σ) : Path step s [] s
  | cons {s t u : σ} {l : ι} {ls : List ι} :
      step s l t → Path step t ls u → Path step s (l :: ls) u

namespace Path

variable {step : σ → ι → σ → Prop} {s t u : σ} {ls ls' : List ι}

theorem single {l : ι} (h : step s l u) : Path step s [l] u := .cons h (.nil u)

theorem append (h : Path step s ls t) (h' : Path step t ls' u) : Path step s (ls ++ ls') u := by
  induction h with
  | nil _ => exact h'
  | cons hst _ ih => exact .cons hst (ih h')

theorem of_append (h : Path step s (ls ++ ls') u) : ∃ t, Path step s ls t ∧ Path step t ls' u := by
  induction ls generalizing s with
  | nil => exact ⟨s, .nil s, h⟩
  | cons l ls ih =>
    cases h with
    | cons hst h =>
      obtain ⟨t, h₁, h₂⟩ := ih h
      exact ⟨t, .cons hst h₁, h₂⟩

theorem exists_step {l : ι} (h : Path step s ls u) (hl : l ∈ ls) : ∃ t v, step t l v := by
  induction h with
  | nil _ => cases hl
  | cons hst _ ih =>
    rcases List.mem_cons.mp hl with rfl | hl
    · exact ⟨_, _, hst⟩
    · exact ih hl

theorem invariant {P : σ → Prop} (h : Path step s ls u) (h0 : P s)
    (hs : ∀ t l v, P t → step t l v → P v) : P u := by
  induction h with
  | nil _ => exact h0
  | cons hst _ ih => exact ih (hs _ _ _ h0 hst)

end Path

/-- In a log, two entries that meet `A` have one between them that meets `D`,
and where `free` holds there is one behind every entry that meets `A`. -/
structure Alternates {α : Type} (A D : α → Prop) (log : List α) (free : Bool) : Prop where
  between : ∀ x y, A x → A y → [x, y].Sublist log → ∃ d, D d ∧ [x, d, y].Sublist log
  behind : free = true → ∀ x ∈ log, A x → ∃ d, D d ∧ [x, d].Sublist log

namespace Alternates

variable {α : Type} {A D : α → Prop} {log es : List α} {e : α} {free : Bool}

theorem pair_sublist_concat {x y : α} (h : [x, y].Sublist (log ++ [e])) :
    [x, y].Sublist log ∨ (x ∈ log ∧ y = e) := by
  obtain ⟨l₁, l₂, hl, h₁, h₂⟩ := List.sublist_append_iff.mp h
  match l₁, hl, h₁ with
  | [], hl, _ =>
    rw [List.nil_append] at hl
    rw [← hl] at h₂
    exact absurd h₂.length_le (by simp)
  | [z], hl, h₁ =>
    obtain ⟨rfl, rfl⟩ : x = z ∧ [y] = l₂ := by simpa using hl
    exact .inr ⟨List.singleton_sublist.mp h₁, List.mem_singleton.mp (List.singleton_sublist.mp h₂)⟩
  | z :: w :: zs, hl, h₁ =>
    obtain ⟨rfl, rfl, hz⟩ : x = z ∧ y = w ∧ [] = zs ++ l₂ := by simpa using hl
    rw [(List.append_eq_nil_iff.mp hz.symm).1] at h₁
    exact .inl h₁

theorem nil (free : Bool) : Alternates A D [] free where
  between x y _ _ h := absurd h.length_le (by simp)
  behind _ x hx := absurd hx List.not_mem_nil

theorem skip (h : Alternates A D log free) (he : ¬ A e) : Alternates A D (log ++ [e]) free where
  between x y hx hy hs := by
    rcases pair_sublist_concat hs with hs | ⟨_, rfl⟩
    · obtain ⟨d, hd, hs⟩ := h.between x y hx hy hs
      exact ⟨d, hd, hs.trans (List.sublist_append_left _ _)⟩
    · exact absurd hy he
  behind hf x hx ha := by
    rcases List.mem_append.mp hx with hx | hx
    · obtain ⟨d, hd, hs⟩ := h.behind hf x hx ha
      exact ⟨d, hd, hs.trans (List.sublist_append_left _ _)⟩
    · rw [List.mem_singleton.mp hx] at ha
      exact absurd ha he

theorem skips (h : Alternates A D log free) (he : ∀ e ∈ es, ¬ A e) :
    Alternates A D (log ++ es) free := by
  induction es generalizing log with
  | nil => rwa [List.append_nil]
  | cons e es ih =>
    rw [List.append_cons]
    exact ih (h.skip (he e List.mem_cons_self)) fun y hy => he y (List.mem_cons_of_mem _ hy)

theorem take (h : Alternates A D log true) : Alternates A D (log ++ [e]) false where
  between x y hx hy hs := by
    rcases pair_sublist_concat hs with hs | ⟨hmem, rfl⟩
    · obtain ⟨d, hd, hs⟩ := h.between x y hx hy hs
      exact ⟨d, hd, hs.trans (List.sublist_append_left _ _)⟩
    · obtain ⟨d, hd, hs⟩ := h.behind rfl x hmem hx
      exact ⟨d, hd, hs.append (List.Sublist.refl [y])⟩
  behind hf := by cases hf

theorem release (h : Alternates A D log free) (hd : D e) (he : ¬ A e) :
    Alternates A D (log ++ [e]) true where
  between := (h.skip he).between
  behind _ x hx ha := by
    rcases List.mem_append.mp hx with hx | hx
    · exact ⟨e, hd, (List.singleton_sublist.mpr hx).append (List.Sublist.refl [e])⟩
    · rw [List.mem_singleton.mp hx] at ha
      exact absurd ha he

end Alternates

/-- Every entry of the log meets `ok`, given the entries before it. -/
def Lawful {α : Type} (ok : List α → α → Prop) (log : List α) : Prop :=
  ∀ before e after, log = before ++ e :: after → ok before e

namespace Lawful

variable {α : Type} {ok : List α → α → Prop} {log : List α} {e : α}

theorem nil : Lawful ok [] := fun before e after h => absurd h.symm (by simp)

theorem concat (h : Lawful ok log) (he : ok log e) : Lawful ok (log ++ [e]) := by
  intro before x after hx
  rcases List.eq_nil_or_concat after with rfl | ⟨after, y, rfl⟩
  · obtain ⟨rfl, hxe⟩ := List.append_inj' hx rfl
    rwa [← List.singleton_inj.mp hxe]
  · rw [List.concat_eq_append, ← List.cons_append, ← List.append_assoc] at hx
    exact h _ _ _ (List.append_inj' hx rfl).1

end Lawful

theorem pair_sublist_or {α : Type} {l : List α} {x y : α} (hx : x ∈ l) (hy : y ∈ l)
    (hne : x ≠ y) : [x, y].Sublist l ∨ [y, x].Sublist l := by
  obtain ⟨as, bs, rfl⟩ := List.append_of_mem hx
  rcases List.mem_append.mp hy with hy | hy
  · exact .inr ((List.singleton_sublist.mpr hy).append
      (List.singleton_sublist.mpr List.mem_cons_self))
  · rcases List.mem_cons.mp hy with hy | hy
    · exact absurd hy.symm hne
    · exact .inl (((List.singleton_sublist.mpr hy).cons_cons x).trans
        (List.sublist_append_right _ _))

def loop (next : σ → Option σ) : Nat → σ → Option σ
  | 0, _ => none
  | k + 1, s =>
    match next s with
    | none => some s
    | some t => loop next k t

theorem loop_stops {next : σ → Option σ} {k : Nat} {s u : σ} (h : loop next k s = some u) :
    next u = none := by
  induction k generalizing s with
  | zero => cases h
  | succ k ih =>
    cases hn : next s with
    | none =>
      simp only [loop, hn, Option.some.injEq] at h
      rwa [← h]
    | some t =>
      simp only [loop, hn] at h
      exact ih h

theorem exists_loop {α : Type} {r : α → α → Prop} (wf : WellFounded r) (rank : σ → α)
    {next : σ → Option σ} (h : ∀ s t, next s = some t → r (rank t) (rank s)) (s : σ) :
    ∃ k u, loop next k s = some u := by
  induction s using (InvImage.wf rank wf).induction with
  | _ s ih =>
    cases hn : next s with
    | none => exact ⟨1, s, by simp [loop, hn]⟩
    | some t =>
      obtain ⟨k, u, hu⟩ := ih t (h s t hn)
      exact ⟨k + 1, u, by simpa [loop, hn] using hu⟩

def steps (f : σ → ι → Option σ) (ok : σ → ι → Bool) : σ → List ι → Option σ
  | s, [] => some s
  | s, l :: ls => if ok s l then (f s l).bind fun t => steps f ok t ls else none

/-- The states that the labels lead through. -/
def visited (f : σ → ι → Option σ) : σ → List ι → List (σ × ι)
  | _, [] => []
  | s, l :: ls => (s, l) :: ((f s l).map fun t => visited f t ls).getD []

theorem run_visited {f : σ → ι → Option σ} {ok : σ → ι → Bool} {s u : σ} {ls : List ι}
    (h : steps f ok s ls = some u) :
    Run (fun s l u => f s l = some u) s (visited f s ls) u ∧ (visited f s ls).map Prod.snd = ls ∧
      ∀ x ∈ visited f s ls, ok x.1 x.2 = true := by
  suffices hs : ∀ (ls : List ι) (tr : List (σ × ι)) (t : σ),
      Run (fun s l u => f s l = some u) s tr t → steps f ok t ls = some u →
      Run (fun s l u => f s l = some u) s (tr ++ visited f t ls) u ∧
        (visited f t ls).map Prod.snd = ls ∧ ∀ x ∈ visited f t ls, ok x.1 x.2 = true by
    simpa using hs ls [] s .nil h
  intro ls
  induction ls with
  | nil =>
    intro tr t hr ht
    rw [← Option.some.inj ht]
    simpa [visited] using hr
  | cons l ls ih =>
    intro tr t hr ht
    simp only [steps] at ht
    split_ifs at ht with hl
    obtain ⟨v, hv, ht⟩ := Option.bind_eq_some_iff.mp ht
    obtain ⟨h₁, h₂, h₃⟩ := ih (tr ++ [(t, l)]) v (hr.snoc hv) ht
    have hvis : visited f t (l :: ls) = (t, l) :: visited f v ls := by rw [visited, hv]; rfl
    rw [hvis]
    refine ⟨by simpa using h₁, by rw [List.map_cons, h₂], fun x hx => ?_⟩
    rcases List.mem_cons.mp hx with rfl | hx
    · exact hl
    · exact h₃ x hx

theorem exists_run_of_steps {f : σ → ι → Option σ} {ok : σ → ι → Bool} {s u : σ} {ls : List ι}
    (h : steps f ok s ls = some u) :
    ∃ tr, Run (fun s l u => f s l = some u) s tr u ∧ tr.map Prod.snd = ls ∧
      ∀ x ∈ tr, ok x.1 x.2 = true := ⟨_, run_visited h⟩

/-- Labels that are enabled one after the other and meet `ok`, and lead to a
state that meets `goal`, give a run. -/
theorem exists_run_of_any {f : σ → ι → Option σ} {s : σ} (ok : σ → ι → Bool) (ls : List ι)
    (goal : σ → Bool) (h : (steps f ok s ls).any goal = true) :
    ∃ tr u, Run (fun s l u => f s l = some u) s tr u ∧ tr.map Prod.snd = ls ∧
      (∀ x ∈ tr, ok x.1 x.2 = true) ∧ goal u = true := by
  obtain ⟨u, hu, hg⟩ := (Option.any_eq_true _ _).mp h
  obtain ⟨tr, hr, hl, hok⟩ := exists_run_of_steps hu
  exact ⟨tr, u, hr, hl, hok, hg⟩

/-- The results of a sequence of operations, oldest first, and the last state. -/
def execAll {ρ : Type} (f : σ → ι → σ × ρ) : σ → List ι → σ × List ρ
  | s, [] => (s, [])
  | s, op :: ops => ((execAll f (f s op).1 ops).1, (f s op).2 :: (execAll f (f s op).1 ops).2)

/-- Two machines that return the same from related states, and stay related,
return the same along every sequence. -/
theorem execAll_simulates {τ ρ : Type} {f : σ → ι → σ × ρ} {g : τ → ι → τ × ρ}
    {R : σ → τ → Prop}
    (h : ∀ s t op, R s t → (f s op).2 = (g t op).2 ∧ R (f s op).1 (g t op).1)
    {s : σ} {t : τ} (hr : R s t) (ops : List ι) :
    (execAll f s ops).2 = (execAll g t ops).2 ∧ R (execAll f s ops).1 (execAll g t ops).1 := by
  induction ops generalizing s t with
  | nil => exact ⟨rfl, hr⟩
  | cons op ops ih =>
    obtain ⟨hres, hnext⟩ := h s t op hr
    obtain ⟨hrest, hlast⟩ := ih hnext
    exact ⟨by rw [execAll, execAll, hres, hrest], hlast⟩

end MeikoCs2
