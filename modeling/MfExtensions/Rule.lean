import MfExtensions.Boolean
import MfExtensions.DomainExpr

/-!
# Rules

`ma_rule` and `ma_richmsg`. The condition vector, its indices and the flags of the primitive
conditions are computed from the boolean expression as the parser's actions build them. The
clock is an argument: the seconds `gettimeofday` reports.
-/

namespace MfExtensions

open Exec

/-- A message with values inserted at positions of the stripped text: the position, the condition
and which of its values. -/
structure RichMsg (C : Type) where
  strippedMsg : String
  symbols : List (ℕ × C × ArgT) := []

/-- `insert_condition_ptr`: a condition already there becomes primitive if it is now used as one,
any other is put at the end. -/
def insertConditionPtr {C : Type} [DecidableEq C] (c : C) (primitive : Bool) :
    List (C × Bool) → List (C × Bool)
  | [] => [(c, primitive)]
  | p :: ps =>
    if p.1 = c then (p.1, p.2 || primitive) :: ps else p :: insertConditionPtr c primitive ps

/-- The conditions of an expression in the order they are first named, and whether each is
primitive. -/
def BooleanExpr.registered {C : Type} [DecidableEq C] (e : BooleanExpr C) : List (C × Bool) :=
  e.leaves.foldl (fun ps p => insertConditionPtr p.1 p.2.isNone ps) []

/-- What a rule is configured with. The parser accepts only an expression of the grammar, and a
`WHERE` clause of the grammar and messages over conditions of the expression. -/
structure RuleConfig (C : Type) [DecidableEq C] where
  name : String
  booleanExpr : BooleanExpr C
  domainExpr : DomainExpr C := []
  alarmMsg : RichMsg C
  repeatAlarm : Bool := false
  holdoff : ℤ := 0
  /-- the parameter of each action -/
  actions : List (RichMsg C) := []
  grammatical : booleanExpr.grammatical = true
  domainGrammatical : domainExpr.grammatical = true
  args_mem : ∀ p ∈ domainExpr.args, p.1 ∈ booleanExpr.leaves.map Prod.fst
  symbols_mem : ∀ m ∈ alarmMsg :: actions, ∀ s ∈ m.symbols,
    s.2.1 ∈ booleanExpr.leaves.map Prod.fst

/-- The state of a rule. `reports` is a history of it that nothing reads: each alarm key, with the
index maps of the rule's conditions at the time it was recorded. -/
structure Rule (C : Type) where
  domains : Domains := []
  alarms : List (Domain × ℤ) := []
  /-- the key `itor_last_alarm` points at -/
  lastAlarm : Option Domain := none
  alarmCount : ℕ := 0
  enabled : Bool := true
  sync : ℕ → SyncTable := fun _ => {}
  reports : List (Domain × (C → IdxMap × IdxMap)) := []

variable {C : Type} [DecidableEq C]

namespace RuleConfig

variable (k : RuleConfig C)

def conditions : List C := k.booleanExpr.registered.map Prod.fst

/-- The source and target maps of the rule's conditions. -/
def maps (conds : C → Condition) (c : C) : IdxMap × IdxMap :=
  if c ∈ k.conditions then ((conds c).hitmap.srcIdx, (conds c).hitmap.tgtIdx)
  else (OrdMap.empty, OrdMap.empty)

/-- The rule as the constructor and `parse` leave it. -/
def init : Rule C :=
  { domains := if k.domainExpr.isEmpty then [domainCtorAny k.conditions.length] else [] }

end RuleConfig

namespace Rule

variable (k : RuleConfig C) (V : View C)

/-- Clear the domains and evaluate them again. -/
def evaluateDomain : EStateM Err (Rule C) Unit := do
  modify fun r => { r with domains := [] }
  let domains ← orThrow (k.domainExpr.evaluate V.conds k.conditions [])
  modify fun r => { r with domains }

/-- `boolean_evaluate`, with an alarm of its own: the code passes the alarm in, null, and makes it
null again before it returns. -/
def booleanEvaluate (now : ℤ) (value domain : Domain) : EStateM Err (Rule C) Bool := do
  let r ← get
  let alarm := domainCtorNullOf domain.length
  let (b, alarm) ← zoom (fun r => (⟨alarm, r.sync⟩ : EvalState))
    (fun r s => { r with sync := s.sync })
    (do let b ← k.booleanExpr.evaluate V k.conditions value domain
        return (b, (← get).alarm))
  if b then
    match r.alarms.lookup alarm with
    | none => do
      modify fun r =>
        { r with
          alarms := r.alarms ++ [(alarm, now)]
          lastAlarm := some alarm
          alarmCount := r.alarmCount + 1
          reports := r.reports ++ [(alarm, k.maps V.conds)] }
      return true
    | some lt =>
      if k.repeatAlarm && now - lt > k.holdoff then do
        -- the key is already in the map, so inserting it again changes nothing
        modify fun r => { r with lastAlarm := some alarm, alarmCount := r.alarmCount + 1 }
        return true
      else return false
  else return false

/-- The cells of a pair of ranges, in the order of the loops. -/
def cellsOf (r : CondRange × CondRange) : List CondDomain :=
  (Hitmap.indices r.1).flatMap fun s => (Hitmap.indices r.2).map fun t => (s, t)

/-- `recursive_evaluate` from the condition on whose domain heads the list; `value` is what the
conditions before it were assigned. -/
def recursiveEvaluate (now : ℤ) (domain : Domain) :
    List ((C × Bool) × CondDomain) → Domain → EStateM Err (Rule C) Bool
  | [], value => booleanEvaluate k V now value domain
  | ((c, primitive), d) :: rest, value => do
    if condDomainIsNull d then throw .assertion
    -- only a primitive condition is assigned its possible cells
    let ranges ← if primitive then orThrow ((V.conds c).hitmap.condRange d)
      else pure ((dNil, dNil), (dNil, dNil))
    (cellsOf ranges).anyM fun v => recursiveEvaluate now domain rest (value ++ [v])

/-- `ma_rule::evaluate`: whether an alarm was raised. -/
def evaluate (now : ℤ) : EStateM Err (Rule C) Bool := do
  let r ← get
  if !r.enabled then return false
  r.domains.anyM fun domain => do
    if domainIsNull domain then throw .assertion
    recursiveEvaluate k V now domain (k.booleanExpr.registered.zip domain) []

/-- `reset`, without the conditions: the engine resets them. -/
def reset (r : Rule C) : Rule C :=
  { r with
    sync := k.booleanExpr.reset r.sync
    alarms := []
    lastAlarm := none
    alarmCount := 0
    reports := [] }

def getAlarm (r : Rule C) : Except Err Domain :=
  if r.alarms.isEmpty then
    .error (.runtime "get_alarm_message(): no alarm has been triggerd")
  else
    match r.lastAlarm with
    | none => .error .assertion
    | some alarm => .ok alarm

end Rule

namespace RichMsg

variable (k : RuleConfig C) (V : View C)

def insertAt (s : String) (pos : ℕ) (v : String) : String :=
  String.ofList (s.toList.take pos ++ v.toList ++ s.toList.drop pos)

/-- Insert the values from the last symbol to the first. -/
def insertSymbols (alarm : Domain) (strippedMsg : String) :
    List (ℕ × C × ArgT) → Except Err String
  | [] => .ok strippedMsg
  | (pos, c, a) :: rest => do
    let result ← insertSymbols alarm strippedMsg rest
    return insertAt result pos (← (V.conds c).arg (alarm.at (k.conditions.idxOf c)) a)

def message (m : RichMsg C) (r : Rule C) : Except Err String := do
  insertSymbols k V (← r.getAlarm) m.strippedMsg m.symbols

end RichMsg

/-- `ma_rule::act`: how many actions succeed. The actions there are, a script and a mail, render
their parameter, start a command without looking at how it ends, and succeed. -/
def Rule.act (k : RuleConfig C) (V : View C) (r : Rule C) : List (RichMsg C) → Except Err ℕ
  | [] => .ok 0
  | p :: ps => do
    let _ ← p.message k V r
    return (← Rule.act k V r ps) + 1

end MfExtensions
