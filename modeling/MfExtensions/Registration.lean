import MfExtensions.Engine

/-!
# Registration

How the lists by which the conditions notify the rules are made: a rule pushes itself on them while
it is parsed, and they are sorted once all the rules are. A feed merges the lists of the conditions
that changed. `feedCalls` is a feed with the calls it makes to the rules as a history.
-/

namespace MfExtensions

open Exec

variable {C R : Type} [DecidableEq C] [LinearOrder R]

/-- The `notify_on_status`, `notify_on_source` and `notify_on_target` of the conditions. -/
abbrev NotifyLists (C R : Type) := NotifyT → C → List R

/-- `push_notify`. -/
def pushNotify (rule : R) (list : List R) : List R :=
  if list.elem rule then list else list ++ [rule]

/-- The list `update_notify_list` takes for an argument. -/
def ArgT.notifyT (arg : ArgT) : NotifyT := if arg = .source then .source else .target

/-- The lists a rule is pushed on while it is parsed: by `insert_condition_ptr` that of the status
of a condition it did not have, by the actions of the `WHERE` clause that of each source and
target. -/
def RuleConfig.notified (k : RuleConfig C) : List (NotifyT × C) :=
  k.conditions.map (fun c => (NotifyT.status, c)) ++
    k.domainExpr.args.map fun p => (p.2.notifyT, p.1)

def pushOn (rule : R) (lists : NotifyLists C R) (n : NotifyT × C) : NotifyLists C R :=
  fun type c => if (type, c) = n then pushNotify rule (lists type c) else lists type c

namespace Config

variable (cfg : Config C R)

/-- The lists once the rules are parsed one after the other. -/
def parseRules (rnames : List R) : NotifyLists C R :=
  rnames.foldl (fun lists r => (cfg.rule r).notified.foldl (pushOn r) lists) fun _ _ => []

/-- The lists as `init_engine` leaves them, each through `sort_notify_lists`. -/
def initNotifyLists (rnames : List R) : NotifyLists C R :=
  fun type c => (cfg.parseRules rnames type c).insertionSort (· ≤ ·)

end Config

/-- `merge_notify_list`: `std::list::merge` and `std::list::unique`, condition by condition. -/
def NotifyLists.merge (lists : NotifyLists C R) (type : NotifyT) (nList : List R)
    (cList : List C) : List R :=
  cList.foldl (fun l c => (l.merge (lists type c) fun a b => a ≤ b).destutter (· ≠ ·)) nList

/-- A call to a rule. -/
inductive Call (R : Type)
  | evaluateDomain (r : R)
  | evaluate (r : R)

namespace Engine

variable (cfg : Config C R)

/-- A computation of the engine, after a call to a rule if it starts with one. -/
def calling {α : Type} (call : Option (Call R)) (x : EStateM Err (Engine C R) α) :
    EStateM Err (Engine C R × List (Call R)) α := do
  modify fun s => (s.1, s.2 ++ call.toList)
  zoom Prod.fst (fun s e => (e, s.2)) x

def evaluateRulesDomainCalls : List R → EStateM Err (Engine C R × List (Call R)) Unit
  | [] => return
  | r :: rs => do
    calling (some (.evaluateDomain r)) (onRule cfg r fun V => Rule.evaluateDomain (cfg.rule r) V)
    evaluateRulesDomainCalls rs

def evaluateRulesCalls (now : ℤ) : List R → EStateM Err (Engine C R × List (Call R)) Unit
  | [] => return
  | r :: rs => do
    calling (some (.evaluate r)) (evaluateRule cfg now r)
    evaluateRulesCalls now rs

/-- `feed`, with the lists it merges and the calls it makes. -/
def feedCalls (lists : NotifyLists C R) (msg : Msg) (now : ℤ) :
    EStateM Err (Engine C R × List (Call R)) Unit := do
  let l ← calling none (matchConds cfg msg cfg.cmap {})
  evaluateRulesDomainCalls cfg
    (lists.merge .target (lists.merge .source [] l.source) l.target)
  evaluateRulesCalls cfg now (lists.merge .status [] l.status)

end Engine

end MfExtensions
