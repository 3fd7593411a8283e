import MfExtensions.Proofs.ParseGrammar
import MfExtensions.Proofs.RichMsg
import MfExtensions.QtMfMsg
import MfExtensions.Rate
import MfExtensions.TestParse

/-!
# Reading a configuration

`ma_rule_engine::init_engine` with the constructor of `ma_condition` and `ma_rule::parse`. The
parameter sets have the defaults of `init_engine`; a rule is made with what the parser has found out
about it. Compiled regular expressions and `mf::ELseverityLevel` are taken from outside.
-/

namespace MfExtensions

open Exec

structure Outside where
  double : DoubleParser
  /-- `boost::regex`, `none` where the constructor throws -/
  regex : String → Option Regex
  /-- `mf::ELseverityLevel(s).getLevel()` -/
  level : String → ELsev

/-- What `init_engine` throws. -/
inductive ConfigErr
  | err (e : Err)
  /-- `boost::bad_expression` -/
  | badExpression
  /-- `std::length_error` -/
  | lengthError
  deriving DecidableEq

def liftErr {α : Type} : Except Err α → Except ConfigErr α
  | .ok a => .ok a
  | .error e => .error (.err e)

/-! ## Conditions -/

structure CondPset where
  severity : String
  source : List String
  category : List String := ["*"]
  regex : String
  test : String := ""
  persistent : Bool := true
  rate : RateBlock := {}
  perSource : Bool := false
  perTarget : Bool := false
  targetGroup : ℕ := 1

/-- `get_sev_from_string` of the level. -/
def ELsev.toSevCode : ELsev → SevCode
  | .success | .zeroSeverity | .unspecified => .debug
  | .info => .info
  | .warning => .warning
  | .error | .severe | .highestSeverity | .noValueAssigned => .error

namespace Outside

variable (E : Outside)

def compile (s : String) : Except ConfigErr Regex :=
  match E.regex s with
  | some e => .ok e
  | none => .error .badExpression

/-- A loop of the constructor through the sources or the categories: whether any will do, and else
the regular expressions. -/
def patterns : List String → Except ConfigErr (Bool × List Regex)
  | [] => .ok (false, [])
  | s :: ss =>
    if s = "*" then .ok (true, [])
    else do
      let e ← E.compile s
      let (any, es) ← patterns ss
      return (any, if any then [] else e :: es)

/-- The loop, and the last ", " of the list of names removed. -/
def names (ss : List String) : Except ConfigErr (Bool × List Regex) := do
  let r ← E.patterns ss
  if ss.isEmpty then throw .lengthError
  return r

def initCondition (name : String) (p : CondPset) : Except ConfigErr CondConfig := do
  let (occur, atLeast) ← liftErr (p.rate.occur name)
  let e ← E.compile p.regex
  let (anySrc, eSrcs) ← E.names p.source
  let (anyCat, eCats) ← E.names p.category
  match ← liftErr (parseConditionTest E.double p.test) with
  | none => throw (.err (.runtime "condition test function parse failed"))
  | some testExpr =>
    return {
      name
      severity := (E.level p.severity).toSevCode
      anySrc
      eSrcs
      anyCat
      eCats
      matchAny := p.regex = "" || p.regex = "*"
      e
      testExpr
      tc := (triggerCount occur atLeast).toInt
      atLeast
      ts := p.rate.timespan.toInt
      perSource := p.perSource
      perTarget := p.perTarget
      targetGroup := p.targetGroup
      persistent := p.persistent }

end Outside

/-! ## Rules -/

structure RulePset where
  repeatAlarm : Bool := false
  holdoff : ℤ := 0
  expression : String
  message : String
  /-- the name and the `param` of each action -/
  actions : List (String × String) := []

/-- The rule before its messages are read. -/
def RuleParse.bare (r : RuleParse) {D : DoubleParser} {condMap : List String} {text : String}
    (h : parseConditionExpr D condMap text {} = .ok true r) (name : String) (p : RulePset) :
    RuleConfig String where
  name
  booleanExpr := r.condExpr
  domainExpr := r.domainExpr
  alarmMsg := ⟨"", []⟩
  repeatAlarm := p.repeatAlarm
  holdoff := p.holdoff
  grammatical := (parse_grammatical h).1
  domainGrammatical := (parse_grammatical h).2.1
  args_mem := (parse_grammatical h).2.2.2.2.2
  symbols_mem m hm s hs := by
    rw [List.mem_singleton.1 hm] at hs
    cases hs

/-- `ma_action_factory::create_instance`, and the constructor of the action. -/
def createAction (k : RuleConfig String) (a : String × String) : Except Err (RichMsg String) :=
  if a.1 = "mail" ∨ a.1 = "script" then RichMsg.init k id a.2
  else .error (.runtime "unknown action name while creating instance of ma_action")

theorem createAction_mem {k : RuleConfig String} {a : String × String} {m : RichMsg String}
    (h : createAction k a = .ok m) : ∀ x ∈ m.symbols, x.2.1 ∈ k.conditions := by
  unfold createAction at h
  split_ifs at h
  exact RichMsg.init_symbols_mem h

theorem createActions_mem {k : RuleConfig String} {as : List (String × String)}
    {ms : List (RichMsg String)} (h : each (createAction k) as = .ok ms) :
    ∀ m ∈ ms, ∀ x ∈ m.symbols, x.2.1 ∈ k.conditions := by
  intro m hm
  obtain ⟨a, -, ha⟩ := exists_of_mem_each h hm
  exact createAction_mem ha

/-- The rule with its messages. -/
def RuleConfig.withMsgs (k : RuleConfig String) (alarmMsg : RichMsg String)
    (actions : List (RichMsg String))
    (h : ∀ m ∈ alarmMsg :: actions, ∀ x ∈ m.symbols, x.2.1 ∈ k.conditions) : RuleConfig String :=
  { k with
    alarmMsg
    actions
    symbols_mem := fun m hm s hs => (RuleConfig.mem_conditions k).1 (h m hm s hs) }

/-- `ma_rule::parse`, of a rule of an engine with the conditions `condMap`. -/
def initRule (D : DoubleParser) (condMap : List String) (name : String) (p : RulePset) :
    Except Err (RuleConfig String) :=
  match h : parseConditionExpr D condMap p.expression {} with
  | .error e _ => .error e
  | .ok false _ => .error (.runtime "rule parsing failed")
  | .ok true r =>
    let k := r.bare h name p
    match halarm : RichMsg.init k id p.message with
    | .error e => .error e
    | .ok alarmMsg =>
      match hactions : each (createAction k) p.actions with
      | .error e => .error e
      | .ok actions => .ok (k.withMsgs alarmMsg actions (List.forall_mem_cons.2
          ⟨RichMsg.init_symbols_mem halarm, createActions_mem hactions⟩))

/-! ## The engine -/

/-- The parameter sets by their names. -/
structure EnginePset where
  EHS : Bool := false
  conditions : List (String × CondPset) := []
  rules : List (String × RulePset) := []
  conditions_nodup : (conditions.map Prod.fst).Nodup
  rules_nodup : (rules.map Prod.fst).Nodup

/-- `init_engine`: the conditions and then the rules, or the first exception. -/
def initEngine (E : Outside) (p : EnginePset) :
    Except ConfigErr (List CondConfig × List (RuleConfig String)) := do
  let conds ← each (fun c => E.initCondition c.1 c.2) p.conditions
  let rules ← each
    (fun r => liftErr (initRule E.double (p.conditions.map Prod.fst) r.1 r.2)) p.rules
  return (conds, rules)

end MfExtensions
