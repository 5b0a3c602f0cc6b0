import Mathlib.Tactic.Common
import Mathlib.Algebra.Order.Ring.Int

/-! Programs as trees of the operations they perform, and monitors for them. A
monitor follows the operations and their results with a state of its own; a
program obeys it when every operation is allowed where it stands and the value
returned meets the postcondition. -/

namespace MeikoCs2

variable {Op : Type} {Res : Op → Type}

inductive Prog (Res : Op → Type) (α : Type) : Type where
  | pure (a : α)
  | op (o : Op) (k : Res o → Prog Res α)

namespace Prog

variable {α β σ : Type}

def bind : Prog Res α → (α → Prog Res β) → Prog Res β
  | pure a, f => f a
  | op o k, f => op o fun r => (k r).bind f

instance : Monad (Prog Res) where
  pure := Prog.pure
  bind := Prog.bind

def perform (o : Op) : Prog Res (Res o) := op o pure

def exec (f : (o : Op) → σ → Res o × σ) : Prog Res α → σ → α × σ
  | pure a, s => (a, s)
  | op o k, s => (k (f o s).1).exec f (f o s).2

theorem exec_bind (f : (o : Op) → σ → Res o × σ) (p : Prog Res α) (g : α → Prog Res β) (s : σ) :
    (p >>= g).exec f s = (g (p.exec f s).1).exec f (p.exec f s).2 := by
  induction p generalizing s with
  | pure a => rfl
  | op o k ih => exact ih _ _

theorem exec_invariant {f : (o : Op) → σ → Res o × σ} {I : σ → Prop}
    (h : ∀ o s, I s → I (f o s).2) (p : Prog Res α) {s : σ} (hs : I s) : I (p.exec f s).2 := by
  induction p generalizing s with
  | pure a => exact hs
  | op o k ih => exact ih _ (h o s hs)

/-- The machine that also records what was performed, with the results. -/
def traced (f : (o : Op) → σ → Res o × σ) (o : Op) (s : σ × List (Sigma Res)) :
    Res o × (σ × List (Sigma Res)) :=
  ((f o s.1).1, ((f o s.1).2, s.2 ++ [⟨o, (f o s.1).1⟩]))

end Prog

structure Monitor (Res : Op → Type) (σ : Type) where
  allows : σ → Op → Prop
  next : σ → (o : Op) → Res o → σ

variable {α β σ : Type}

/-- The program, started in monitor state `s`, stays within the monitor and
returns a value that meets `post`. -/
def Obeys (m : Monitor Res σ) (post : σ → α → Prop) : σ → Prog Res α → Prop
  | s, .pure a => post s a
  | s, .op o k => m.allows s o ∧ ∀ r, Obeys m post (m.next s o r) (k r)

namespace Obeys

variable {m : Monitor Res σ} {post : σ → α → Prop} {post' : σ → β → Prop}

theorem bind {s : σ} {p : Prog Res α} {f : α → Prog Res β} (h : Obeys m post s p)
    (hf : ∀ t a, post t a → Obeys m post' t (f a)) : Obeys m post' s (p >>= f) := by
  induction p generalizing s with
  | pure a => exact hf s a h
  | op o k ih => exact ⟨h.1, fun r => ih r (h.2 r)⟩

theorem mono {s : σ} {p : Prog Res α} {post₂ : σ → α → Prop} (h : Obeys m post s p)
    (hp : ∀ t a, post t a → post₂ t a) : Obeys m post₂ s p := by
  induction p generalizing s with
  | pure a => exact hp s a h
  | op o k ih => exact ⟨h.1, fun r => ih r (h.2 r)⟩

/-- A program whose operations all meet `ok` records operations that do. -/
theorem exec_traced {ok : Op → Prop} {m : Monitor Res σ} {post : σ → α → Prop} {τ : Type}
    {f : (o : Op) → τ → Res o × τ} (hm : ∀ s o, m.allows s o → ok o) {s : σ} {p : Prog Res α}
    (h : Obeys m post s p) (t : τ × List (Sigma Res)) :
    ∃ evs, (p.exec (Prog.traced f) t).2.2 = t.2 ++ evs ∧ ∀ e ∈ evs, ok e.1 := by
  induction p generalizing s t with
  | pure a => exact ⟨[], (List.append_nil t.2).symm, by simp⟩
  | op o k ih =>
    have hk := h.2 (f o t.1).1
    obtain ⟨evs, hevs, hok⟩ := ih _ hk (Prog.traced f o t).2
    refine ⟨⟨o, (f o t.1).1⟩ :: evs, ?_, ?_⟩
    · rw [Prog.exec, List.append_cons]
      exact hevs
    · intro e he
      rcases List.mem_cons.mp he with rfl | he
      · exact hm s o h.1
      · exact hok e he

end Obeys

end MeikoCs2
