import MfExtensions.Types

/-!
# The rate of a condition

The `rate` block of a condition as `init_engine` reads it: how many messages, at least or at most,
in how many seconds. The constructor of `ma_condition` keeps the count as the number of messages
that triggers a cell.
-/

namespace MfExtensions

structure RateBlock where
  occurAtMost : Option Int32 := none
  occurAtLeast : Option Int32 := none
  occurence : Option Int32 := none
  /-- a random long time -/
  timespan : Int32 := 4372596

namespace RateBlock

/-- The count of `occur_at_least`, or of the previous keyword. -/
def atLeast (r : RateBlock) : Option Int32 := r.occurAtLeast.or r.occurence

/-- `occur` and `at_least`, in the condition `name`. -/
def occur (name : String) (r : RateBlock) : Except Err (Int32 × Bool) :=
  match r.occurAtMost, r.atLeast with
  | some _, some _ => .error (.runtime ("rule_engine::init_engine() cannot have both " ++
      "'occur_at_least' and 'occur_at_most' in the rate entry, in condition " ++ name))
  | none, none => .ok (1, true)
  | none, some n => .ok (n, true)
  | some n, none => .ok (n, false)

end RateBlock

/-- `tc`, as the constructor of `ma_condition` computes it. -/
def triggerCount (occur : Int32) (atLeast : Bool) : Int32 := if atLeast then occur else occur + 1

/-- The condition with the rate of its configuration. -/
def CondConfig.rated (k : CondConfig) (r : RateBlock) : Except Err CondConfig := do
  let (occur, atLeast) ← r.occur k.name
  return { k with tc := (triggerCount occur atLeast).toInt, atLeast, ts := r.timespan.toInt }

end MfExtensions
