import MfExtensions.Rule

/-!
# The life of a rule

A rule is evaluated on what its conditions hold at the time, its domains are evaluated, it is
switched and reset. The histories, which nothing reads, are the key of the entry that the last
evaluation to return true added to the alarms, and, since the last reset, the alarms the rule
fired: what `get_alarm` returns after the evaluation, and when.
-/

namespace MfExtensions

structure RuleRun (C : Type) where
  rule : Rule C
  recorded : Option Domain := none
  fired : List (Domain × ℤ) := []

inductive RuleAct (C : Type)
  | evaluate (V : View C) (now : ℤ)
  | evaluateDomain (V : View C)
  | enable (flag : Bool)
  | reset

namespace RuleRun

variable {C : Type}

/-- The key of an entry that is new among the alarms. -/
def newKey (r r' : Rule C) : Option Domain :=
  (r'.alarms.find? fun e => (r.alarms.lookup e.1).isNone).map Prod.fst

/-- The history with the alarm of the rule. -/
def report (now : ℤ) (r : Rule C) (fired : List (Domain × ℤ)) : List (Domain × ℤ) :=
  match r.getAlarm with
  | .ok key => fired ++ [(key, now)]
  | .error _ => fired

variable [DecidableEq C] (k : RuleConfig C)

/-- A rule as it is parsed. -/
def start : RuleRun C := { rule := k.init }

/-- The state after an action, returning or throwing. -/
def step : RuleAct C → RuleRun C → Option (RuleRun C)
  | .evaluate V now, s =>
    match Rule.evaluate k V now s.rule with
    | .ok true r =>
      some { rule := r, recorded := newKey s.rule r, fired := report now r s.fired }
    | .ok false r => some { s with rule := r }
    | .error _ r => some { s with rule := r }
  | .evaluateDomain V, s =>
    some { s with rule := Exec.final (Rule.evaluateDomain k V) s.rule }
  | .enable flag, s => some { s with rule := { s.rule with enabled := flag } }
  | .reset, s => some { s with rule := s.rule.reset k, fired := [] }

end RuleRun

end MfExtensions
