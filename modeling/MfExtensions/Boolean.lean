import MfExtensions.Condition
import MfExtensions.Participants

/-!
# Custom functions and boolean expressions

`ma_function` and its three implementations, and `ma_boolean_cond`, `ma_boolean_andexpr` and
`ma_boolean_expr`. A boolean expression is a list of and-expressions, alternatives, each a list
of boolean conditions. The functions' own state is kept beside the expression, one table for
each `is_syncd` object.
-/

namespace MfExtensions

open Exec

/-- The state of an `ma_func_is_syncd`. -/
structure SyncTable where
  syncTime : OrdMap String UInt64 := OrdMap.empty
  min : UInt64 := 0
  max : UInt64 := 0

/-- The functions a rule can call; `obj` is the identity of the `is_syncd` object. -/
inductive ExtFunc
  | count (type : ArgT)
  | countPercent (type : ArgT) (group : String)
  | isSyncd (obj : ℕ)

/-- What a rule reads while it is evaluated. -/
structure View (C : Type) where
  lex : LexicalCast
  participants : Participants
  conds : C → Condition

namespace ExtFunc

def groupedAlarm : ExtFunc → Bool
  | .isSyncd _ => false
  | _ => true

/-- None of the functions overrides `ma_function::reset`, which does nothing. -/
def reset (_ : ExtFunc) (sync : ℕ → SyncTable) : ℕ → SyncTable := sync

/-- `ma_func_is_syncd::evaluate` once the time is read. -/
def syncStep (source : String) (time : UInt64) (x : SyncTable) : SyncTable × Bool :=
  if x.syncTime.isEmpty || (x.syncTime.find? source).isSome then
    ({ syncTime := OrdMap.empty.insert source time, min := time, max := time }, false)
  else
    let min := if time < x.min then time else x.min
    let max := if time > x.max then time else x.max
    ({ syncTime := x.syncTime.insert source time, min, max }, max - min > 5)

def evaluate {C : Type} (V : View C) (c : Condition) (dom : CondDomain) :
    ExtFunc → EStateM Err (ℕ → SyncTable) Any
  | .count type => do return .int (← orThrow (c.hitmap.alarmCount dom type))
  | .countPercent type group => do
    let count ← orThrow (c.hitmap.alarmCount dom type)
    let total ← orThrow (V.participants.groupCount group)
    return .double (Float.ofInt count / Float.ofInt total)
  | .isSyncd obj => do
    let timeStr ← orThrow (c.msgGroup 1)
    match V.lex.toUInt64 timeStr with
    | none => return .bool true
    | some time =>
      let (x, out) := syncStep c.lastSrc time ((← get) obj)
      modify fun sync => Function.update sync obj x
      return .bool out

end ExtFunc

/-- `ma_boolean_cond`: a parenthesised expression, a primitive condition, or a function of a
condition compared with a literal. -/
inductive BooleanCond (C : Type)
  | expr (e : List (List (BooleanCond C)))
  | cond (c : C)
  | func (c : C) (f : ExtFunc) (rhv : Rhv)

abbrev BooleanExpr (C : Type) := List (List (BooleanCond C))

/-- What the evaluation of a boolean expression changes: the alarm being built and the state of
the functions. -/
structure EvalState where
  alarm : Domain
  sync : ℕ → SyncTable

variable {C : Type} [DecidableEq C]

/-- The alarm entry of a condition under a function. -/
def ExtFunc.alarmEntry (f : ExtFunc) (c : Condition) (dom : CondDomain) : CondDomain :=
  if f.groupedAlarm then dom
  else (c.hitmap.findArg c.lastSrc .source, c.hitmap.findArg c.lastTgt .target)

variable (V : View C) (order : List C) (value domain : Domain)

mutual

/-- `order` is the rule's condition vector, `value` the cells assigned to its conditions, `domain`
the domains they are taken from. -/
def BooleanCond.evaluate : BooleanCond C → EStateM Err EvalState Bool
  | .expr e => BooleanCond.evaluateOr e
  | .cond c => do
    let i := order.idxOf c
    modify fun s =>
      if condDomainIsNull (s.alarm.at i) then { s with alarm := s.alarm.set i (value.at i) } else s
    return (V.conds c).hitmap.status (value.at i)
  | .func c f rhv => do
    let i := order.idxOf c
    modify fun s => { s with alarm := s.alarm.set i (f.alarmEntry (V.conds c) (domain.at i)) }
    let v ← zoom EvalState.sync (fun s sync => { s with sync }) (f.evaluate V (V.conds c)
      (domain.at i))
    orThrow (rhv.test v)

/-- `ma_boolean_andexpr::evaluate`. -/
def BooleanCond.evaluateAnd : List (BooleanCond C) → EStateM Err EvalState Bool
  | [] => return true
  | b :: bs => do if ← b.evaluate then BooleanCond.evaluateAnd bs else return false

/-- `ma_boolean_expr::evaluate`. -/
def BooleanCond.evaluateOr : List (List (BooleanCond C)) → EStateM Err EvalState Bool
  | [] => return false
  | a :: as => do if ← BooleanCond.evaluateAnd a then return true else BooleanCond.evaluateOr as

end

omit [DecidableEq C] in
mutual

/-- The conditions of an expression in the order they are parsed, each with its function or as a
primitive. -/
def BooleanCond.leaves : BooleanCond C → List (C × Option ExtFunc)
  | .expr e => BooleanCond.leavesOr e
  | .cond c => [(c, none)]
  | .func c f _ => [(c, some f)]

def BooleanCond.leavesAnd : List (BooleanCond C) → List (C × Option ExtFunc)
  | [] => []
  | b :: bs => b.leaves ++ BooleanCond.leavesAnd bs

def BooleanCond.leavesOr : List (List (BooleanCond C)) → List (C × Option ExtFunc)
  | [] => []
  | a :: as => BooleanCond.leavesAnd a ++ BooleanCond.leavesOr as

end

omit [DecidableEq C] in
mutual

/-- What the grammar makes: an expression has an alternative, an and-expression has a condition. -/
def BooleanCond.grammatical : BooleanCond C → Bool
  | .expr e => !e.isEmpty && BooleanCond.grammaticalOr e
  | .cond _ => true
  | .func _ _ _ => true

def BooleanCond.grammaticalAnd : List (BooleanCond C) → Bool
  | [] => true
  | b :: bs => b.grammatical && BooleanCond.grammaticalAnd bs

def BooleanCond.grammaticalOr : List (List (BooleanCond C)) → Bool
  | [] => true
  | a :: as => !a.isEmpty && BooleanCond.grammaticalAnd a && BooleanCond.grammaticalOr as

end

namespace BooleanExpr

abbrev grammatical (e : BooleanExpr C) : Bool := !e.isEmpty && BooleanCond.grammaticalOr e

abbrev evaluate (e : BooleanExpr C) : EStateM Err EvalState Bool :=
  BooleanCond.evaluateOr V order value domain e

abbrev leaves (e : BooleanExpr C) : List (C × Option ExtFunc) := BooleanCond.leavesOr e

/-- `ma_boolean_expr::reset`: every function is reset. -/
def reset (e : BooleanExpr C) (sync : ℕ → SyncTable) : ℕ → SyncTable :=
  (e.leaves.filterMap Prod.snd).foldl (fun sync f => f.reset sync) sync

end BooleanExpr

end MfExtensions
