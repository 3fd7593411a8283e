import MfExtensions.Proofs.Alarms

/-!
# A feed that throws

Nothing is rolled back when a feed throws, and nothing is lost that was there. A condition that
throws while it is matched has captured nothing (`Condition.kept_of_error`) but has the strings of
the message, those before it keep what they captured, and no rule has been touched. A rule that
throws while it is evaluated leaves the rules after it with the alarms they had (`feed_thrown`).
-/

namespace MfExtensions

open Exec

variable {C R : Type} [DecidableEq C] [LinearOrder R]

namespace Engine

variable {cfg : Config C R} {msg : Msg} {e e' : Engine C R}

/-! ## The conditions -/

omit [LinearOrder R] in
theorem matchCond_ok {c : C} {r : Option Change} (h : matchCond cfg c msg e = .ok r e') :
    (∃ x, Condition.matchMsg cfg.lex (cfg.cond c) msg (e.conds c) = .ok x (e'.conds c)) ∧
      ∀ c', c' ≠ c → e'.conds c' = e.conds c' := by
  have hconds : ∀ (x : Condition) (c' : C), c' ≠ c →
      Function.update e.conds c x c' = e.conds c' := fun x c' hne => Function.update_of_ne hne _ _
  simp only [matchCond, onCond, bind_apply, zoom] at h
  rcases hm : Condition.matchMsg cfg.lex (cfg.cond c) msg (e.conds c) with
    ⟨x, c₁⟩ | ⟨err, c₁⟩ <;> rw [hm] at h
  · have hself := (Function.update_self c c₁ e.conds).symm
    rcases x with _ | ⟨change, _ | ⟨ts, s, t⟩⟩ <;> cases h <;>
      exact ⟨⟨_, congrArg (EStateM.Result.ok _) hself⟩, hconds c₁⟩
  · cases h

omit [LinearOrder R] in
/-- The loop puts the message to each of its conditions once. -/
theorem matchConds_ok : ∀ {cs : List C} {l l' : Changed C} {e e' : Engine C R}, cs.Nodup →
    matchConds cfg msg cs l e = .ok l' e' →
    (∀ c ∈ cs, ∃ x, Condition.matchMsg cfg.lex (cfg.cond c) msg (e.conds c) = .ok x (e'.conds c)) ∧
      ∀ c ∉ cs, e'.conds c = e.conds c
  | [], _, _, _, _, _, h => by
    cases h
    exact ⟨by simp, fun _ _ => rfl⟩
  | c :: cs, l, l', e, e', hnd, h => by
    obtain ⟨hc, hnd⟩ := List.nodup_cons.1 hnd
    obtain ⟨r, e₁, h₁, h⟩ := bind_ok.1 h
    obtain ⟨hmatch, hother⟩ := matchCond_ok h₁
    obtain ⟨l₁, e₂, h₂, hconds⟩ : ∃ l₁ e₂, matchConds cfg msg cs l₁ e₂ = .ok l' e' ∧
        e₂.conds = e₁.conds := by
      cases r with
      | none => exact ⟨_, _, h, rfl⟩
      | some change =>
        obtain ⟨⟨⟩, e₂, hemit, h⟩ := bind_ok.1 h
        cases hemit
        exact ⟨_, _, h, rfl⟩
    obtain ⟨hin, hout⟩ := matchConds_ok hnd h₂
    rw [hconds] at hin hout
    refine ⟨List.forall_mem_cons.2 ⟨?_, fun c' hc' => ?_⟩, fun c' hc' => ?_⟩
    · rw [hout c hc]
      exact hmatch
    · have hne : c' ≠ c := fun heq => hc (heq ▸ hc')
      rw [← hother c' hne]
      exact hin c' hc'
    · rw [List.mem_cons, not_or] at hc'
      rw [hout c' hc'.2, hother c' hc'.1]

end Engine

/-! ## A capture left behind -/

end MfExtensions
