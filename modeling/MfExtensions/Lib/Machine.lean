import Mathlib.Logic.Relation

/-!
# Machines

A machine is a partial function from an action and a state to the state after it, `none` where the
action is not possible. `Run step ok s₀ s` says that `s` is reached from `s₀` by actions each of
which `ok` allows in the state it is taken in.
-/

namespace Machine

open Relation

variable {σ α : Type} (step : α → σ → Option σ) (ok : α → σ → Prop) {s₀ s s' : σ}

def Run (s₀ : σ) : σ → Prop := ReflTransGen (fun s s' => ∃ a, ok a s ∧ step a s = some s') s₀

/-- Reached by any actions. -/
abbrev Reaches (s₀ : σ) : σ → Prop := Run step (fun _ _ => True) s₀

variable {step ok}

theorem Run.next (h : Run step ok s₀ s) {a : α} (hok : ok a s) (hs : step a s = some s') :
    Run step ok s₀ s' := ReflTransGen.tail h ⟨a, hok, hs⟩

theorem Run.mono {ok' : α → σ → Prop} (h : Run step ok s₀ s) (hok : ∀ a s, ok a s → ok' a s) :
    Run step ok' s₀ s :=
  ReflTransGen.mono (fun s _ ⟨a, ha, hs⟩ => ⟨a, hok a s ha, hs⟩) _ _ h

theorem Run.reaches (h : Run step ok s₀ s) : Reaches step s₀ s := h.mono fun _ _ _ => trivial

/-- What holds at the start and is kept by every allowed action holds in every state of a run. -/
theorem Run.invariant {I : σ → Prop} (h : Run step ok s₀ s) (hinit : I s₀)
    (hstep : ∀ a s s', I s → ok a s → step a s = some s' → I s') : I s := by
  induction h with
  | refl => exact hinit
  | tail _ hs ih =>
    obtain ⟨a, hok, hs⟩ := hs
    exact hstep a _ _ ih hok hs

/-- Take the actions of a list one after the other. -/
def exec (step : α → σ → Option σ) : List α → σ → Option σ
  | [], s => some s
  | a :: as, s => (step a s).bind (exec step as)

theorem reaches_exec : ∀ (as : List α) {s₀ s : σ}, exec step as s₀ = some s → Reaches step s₀ s
  | [], s₀, s, h => by
    rw [exec, Option.some_inj] at h
    exact h ▸ .refl
  | a :: as, s₀, s, h => by
    obtain ⟨s₁, h₁, h⟩ := Option.bind_eq_some_iff.1 h
    exact ReflTransGen.head ⟨a, trivial, h₁⟩ (reaches_exec as h)

end Machine
