import Mathlib.Data.List.Sort
import Mathlib.Data.List.Destutter
import MfExtensions.Rule

/-!
# The rule engine

`ma_rule_engine`. Conditions and rules are named by what points to them, types `C` and `R`; the
order of `R` is the order of the addresses, by which the notification lists are sorted. A call
of the engine's interface, or a pass of its event worker, is an `Op`.
-/

namespace MfExtensions

open Exec

inductive NotifyT
  | status
  | source
  | target
  deriving DecidableEq

/-- `ma_timing_event`: when, and the cell. -/
structure TimingEvent (C : Type) where
  ts : ℤ
  cond : C
  sIdx : ℕ
  tIdx : ℕ

/-- What the engine calls its owner with. -/
inductive Output
  | condMatch (cond : String)
  | alarm (rule msg : String)
  deriving DecidableEq

variable {C R : Type} [DecidableEq C] [LinearOrder R]

/-- What the engine is constructed from: `cmap` and `rmap` list the conditions and the rules, each
once, in the order of their names. -/
structure Config (C R : Type) [DecidableEq C] where
  lex : LexicalCast
  EHS : Bool := false
  cmap : List C
  rmap : List R
  cond : C → CondConfig
  rule : R → RuleConfig C
  mem_cmap : ∀ c, c ∈ cmap
  cmap_nodup : cmap.Nodup
  mem_rmap : ∀ r, r ∈ rmap
  rmap_nodup : rmap.Nodup
  condName_inj : ∀ c c', (cond c).name = (cond c').name → c = c'
  ruleName_inj : ∀ r r', (rule r).name = (rule r').name → r = r'

/-- The state of the engine, and the calls it has made. `events` is the priority queue in the
order its events are popped. -/
structure Engine (C R : Type) where
  conds : C → Condition
  rules : R → Rule C
  events : List (TimingEvent C) := []
  EHS : Bool
  participants : Participants := {}
  log : List Output := []

namespace Config

variable (cfg : Config C R)

/-- `get_notify_list`: the rules that registered with the condition while they were parsed, sorted
by address. -/
def notifyList (type : NotifyT) (c : C) : List R :=
  (cfg.rmap.filter fun r =>
    match type with
    | .status => (cfg.rule r).conditions.contains c
    | .source => (cfg.rule r).domainExpr.args.contains (c, .source)
    | .target => (cfg.rule r).domainExpr.args.contains (c, .target)).insertionSort (· ≤ ·)

/-- `merge_notify_list`: merge the sorted lists of the conditions and keep each rule once. -/
def mergeNotifyList (type : NotifyT) (nList : List R) (cList : List C) : List R :=
  cList.foldl (fun l c =>
    ((cfg.notifyList type c).foldr (List.orderedInsert (· ≤ ·)) l).destutter (· ≠ ·)) nList

def view (e : Engine C R) : View C := ⟨cfg.lex, e.participants, e.conds⟩

/-- The engine as it is constructed. -/
def init : Engine C R :=
  { conds := fun _ => {}, rules := fun r => (cfg.rule r).init, EHS := cfg.EHS }

end Config

namespace Engine

variable (cfg : Config C R)

/-- A computation on one condition. -/
def onCond {α : Type} (c : C) (x : EStateM Err Condition α) : EStateM Err (Engine C R) α :=
  zoom (fun e => e.conds c) (fun e s => { e with conds := Function.update e.conds c s }) x

/-- A computation on one rule. -/
def onRule {α : Type} (r : R) (x : View C → EStateM Err (Rule C) α) :
    EStateM Err (Engine C R) α := do
  let e ← get
  zoom (fun e => e.rules r) (fun e s => { e with rules := Function.update e.rules r s })
    (x (cfg.view e))

def emit (o : Output) : EStateM Err (Engine C R) Unit :=
  modify fun e => { e with log := e.log ++ [o] }

/-- `priority_queue::push`: events come out by time. -/
def pushEvent (ev : TimingEvent C) : List (TimingEvent C) → List (TimingEvent C)
  | [] => [ev]
  | x :: xs => if ev.ts < x.ts then ev :: x :: xs else x :: pushEvent ev xs

/-- Match a message against one condition; the hit that captures it schedules its event. -/
def matchCond (c : C) (msg : Msg) : EStateM Err (Engine C R) (Option Change) := do
  match ← onCond c (Condition.matchMsg cfg.lex (cfg.cond c) msg) with
  | none => return none
  | some (change, te) =>
    match te with
    | none => return some change
    | some (ts, s, t) =>
      modify fun e => { e with events := pushEvent ⟨ts, c, s, t⟩ e.events }
      return some change

/-- The conditions whose status, sources and targets changed. -/
structure Changed (C : Type) where
  status : List C := []
  source : List C := []
  target : List C := []

def Changed.push (c : C) (change : Change) (l : Changed C) : Changed C where
  status := if change.status then l.status ++ [c] else l.status
  source := if change.source then l.source ++ [c] else l.source
  target := if change.target then l.target ++ [c] else l.target

/-- The loop of `feed` through the conditions. -/
def matchConds (msg : Msg) : List C → Changed C → EStateM Err (Engine C R) (Changed C)
  | [], l => return l
  | c :: cs, l => do
    match ← matchCond cfg c msg with
    | none => matchConds msg cs l
    | some change =>
      emit (.condMatch (cfg.cond c).name)
      matchConds msg cs (l.push c change)

def evaluateRulesDomain : List R → EStateM Err (Engine C R) Unit
  | [] => return
  | r :: rs => do
    onRule cfg r fun V => Rule.evaluateDomain (cfg.rule r) V
    evaluateRulesDomain rs

/-- `ma_rule::reset` of a rule and its conditions. -/
def resetRuleOf (r : R) : EStateM Err (Engine C R) Unit :=
  modify fun e =>
    { e with
      conds := fun c => if c ∈ (cfg.rule r).conditions then (e.conds c).reset else e.conds c
      rules := Function.update e.rules r ((e.rules r).reset (cfg.rule r)) }

/-- Whether the actions of a rule that raised an alarm ask for its reset. -/
def act (r : R) : EStateM Err (Engine C R) Bool := do
  let e ← get
  if e.EHS then
    return (← orThrow ((e.rules r).act (cfg.rule r) (cfg.view e) (cfg.rule r).actions)) > 0
  else return false

/-- Evaluate a rule, report its alarm and take its actions: whether they ask for its reset. -/
def raiseAlarm (now : ℤ) (r : R) : EStateM Err (Engine C R) Bool := do
  if ← onRule cfg r fun V => Rule.evaluate (cfg.rule r) V now then
    let e ← get
    emit (.alarm (cfg.rule r).name
      (← orThrow ((cfg.rule r).alarmMsg.message (cfg.rule r) (cfg.view e) (e.rules r))))
    act cfg r
  else return false

/-- One round of `evaluate_rules`. -/
def evaluateRule (now : ℤ) (r : R) : EStateM Err (Engine C R) Unit := do
  if ← raiseAlarm cfg now r then
    resetRuleOf cfg r
    emit (.alarm (cfg.rule r).name "reseting this rule!")

def evaluateRules (now : ℤ) : List R → EStateM Err (Engine C R) Unit
  | [] => return
  | r :: rs => do
    evaluateRule cfg now r
    evaluateRules now rs

def notifyStatus (l : Changed C) : List R := cfg.mergeNotifyList .status [] l.status

def notifyDomain (l : Changed C) : List R :=
  cfg.mergeNotifyList .target (cfg.mergeNotifyList .source [] l.source) l.target

/-- `feed`; `now` is the time the alarms are stamped with. -/
def feed (msg : Msg) (now : ℤ) : EStateM Err (Engine C R) Unit := do
  let l ← matchConds cfg msg cfg.cmap {}
  evaluateRulesDomain cfg (notifyDomain cfg l)
  evaluateRules cfg now (notifyStatus cfg l)

/-- Deliver events to their cells: the conditions, and those with a status flip. -/
def deliver : List (TimingEvent C) → (C → Condition) → List C → (C → Condition) × List C
  | [], conds, status => (conds, status)
  | ev :: evs, conds, status =>
    let (x, flipped) := (conds ev.cond).event (cfg.cond ev.cond) ev.sIdx ev.tIdx ev.ts
    deliver evs (Function.update conds ev.cond x)
      (if flipped then status ++ [ev.cond] else status)

/-- Pop the events due before `now` and deliver them. -/
def deliverDue (now : ℤ) (e : Engine C R) : Engine C R × List C :=
  let (conds, status) := deliver cfg (e.events.takeWhile fun ev => ev.ts < now) e.conds []
  ({ e with conds, events := e.events.dropWhile fun ev => ev.ts < now }, status)

/-- A pass of `event_worker`: `now` is the time the due events are older than, `tod` the time the
alarms are stamped with. -/
def eventWorker (now tod : ℤ) : EStateM Err (Engine C R) Unit := do
  let (e, status) := deliverDue cfg now (← get)
  set e
  evaluateRules cfg tod (notifyStatus cfg { status })

def findCondByName (name : String) : Except Err C :=
  match cfg.cmap.find? fun c => (cfg.cond c).name = name with
  | some c => .ok c
  | none => .error (.runtime "rule_engine::find_cond_by_name() name not found")

def findRuleByName (name : String) : Except Err R :=
  match cfg.rmap.find? fun r => (cfg.rule r).name = name with
  | some r => .ok r
  | none => .error (.runtime "rule_engine::find_rule_by_name() name not found")

def enableRule (name : String) (flag : Bool) : EStateM Err (Engine C R) Unit := do
  let r ← orThrow (findRuleByName cfg name)
  modify fun e =>
    { e with rules := Function.update e.rules r { e.rules r with enabled := flag } }

/-- `enable_EHS`. -/
def enableEHS (flag : Bool) : EStateM Err (Engine C R) Unit :=
  modify fun e => { e with EHS := flag }

/-- A call that the engine passes on to the participants. -/
def onParticipants (op : ParticipantsOp) : EStateM Err (Engine C R) Unit := do
  let participants ← orThrow (op.exec (← get).participants)
  modify fun e => { e with participants }

def resetRule (name : String) : EStateM Err (Engine C R) Unit := do
  resetRuleOf cfg (← orThrow (findRuleByName cfg name))

def resetRulesOf : List R → EStateM Err (Engine C R) Unit
  | [] => return
  | r :: rs => do
    resetRuleOf cfg r
    resetRulesOf rs

def resetRules : EStateM Err (Engine C R) Unit := resetRulesOf cfg cfg.rmap

def resetCond (name : String) : EStateM Err (Engine C R) Unit := do
  let c ← orThrow (findCondByName cfg name)
  modify fun e => { e with conds := Function.update e.conds c (e.conds c).reset }

def resetConds : EStateM Err (Engine C R) Unit :=
  modify fun e => { e with conds := fun c => (e.conds c).reset }

def reset : EStateM Err (Engine C R) Unit := do
  resetConds
  resetRules cfg

end Engine

/-- The calls that change the state of an engine, and the passes of its event worker. -/
inductive Op
  | feed (msg : Msg) (now : ℤ)
  | eventWorker (now tod : ℤ)
  | enableRule (name : String) (flag : Bool)
  | enableEHS (flag : Bool)
  | participants (op : ParticipantsOp)
  | resetRule (name : String)
  | resetRules
  | resetCond (name : String)
  | resetConds
  | reset

/-- The computation of an `Op`. -/
def Op.exec (cfg : Config C R) : Op → EStateM Err (Engine C R) Unit
  | .feed msg now => Engine.feed cfg msg now
  | .eventWorker now tod => Engine.eventWorker cfg now tod
  | .enableRule name flag => Engine.enableRule cfg name flag
  | .enableEHS flag => Engine.enableEHS flag
  | .participants op => Engine.onParticipants op
  | .resetRule name => Engine.resetRule cfg name
  | .resetRules => Engine.resetRules cfg
  | .resetCond name => Engine.resetCond cfg name
  | .resetConds => Engine.resetConds
  | .reset => Engine.reset cfg

end MfExtensions
