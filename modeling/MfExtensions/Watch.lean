import MfExtensions.Engine
import MfExtensions.HitmapRun
import MfExtensions.Lib.Burst

/-!
# What conditions and rules are for

What a message is to a condition, said of the message alone, and an engine watched at one of its
conditions: the history of the messages that it took since its last reset, which nothing reads.
-/

namespace MfExtensions

open Exec

namespace CondConfig

variable (k : CondConfig) (msg : Msg)

def srcMatch : Option Smatch := (k.eSrcs.findSome? fun e => e.regexMatch msg.app).map (⟨.src, ·⟩)

def catMatch : Option Smatch := (k.eCats.findSome? fun e => e.regexMatch msg.cat).map (⟨.cat, ·⟩)

def bodyMatch : Option Smatch := (k.e.regexSearch msg.text).map (⟨.bdy, ·⟩)

/-- The match of the last regular expression the message is put to, if it is put to any. -/
def lastMatch : Smatch :=
  (if !k.matchAny then k.bodyMatch msg
    else if !k.anyCat then k.catMatch msg
    else if !k.anySrc then k.srcMatch msg
    else none).getD {}

/-- The condition is about the message. -/
def takes (L : LexicalCast) : Bool :=
  decide (k.severity.toNat ≤ msg.sev.toNat) && (k.anySrc || (k.srcMatch msg).isSome) &&
    (k.anyCat || (k.catMatch msg).isSome) && (k.matchAny || (k.bodyMatch msg).isSome) &&
    (TestPrimary.evaluate L { texts := msg.texts, lastWhat := k.lastMatch msg }
      (.expr k.testExpr)).toOption = some true

def target : String :=
  if k.matchAny || !k.perTarget then ""
  else slice msg.text ((k.lastMatch msg).subs.getD k.targetGroup (0, 0))

/-- The names the condition distinguishes the message by. -/
def names : String × String := (srcName k msg.app, tgtName k (k.target msg))

/-- The condition asks for at least one message, in a time that is not negative. -/
structure Bursty : Prop where
  atLeast : k.atLeast = true
  one_le : 1 ≤ k.tc
  int : k.tc < 2 ^ 31
  timespan : 0 ≤ k.ts

/-- There is a time whose window holds the messages the condition asks for. -/
abbrev HasBurst (ms : List Msg) : Prop := Burst.Has Msg.time k.ts (sizeT k.tc) ms

end CondConfig

variable {C R : Type} [DecidableEq C] [LinearOrder R]

/-- The messages taken, each with its names. -/
abbrev Taken := List ((String × String) × Msg)

/-- There is such a time for the messages of two names. -/
def CondConfig.BurstOf (k : CondConfig) (x : String × String) (taken : Taken) : Prop :=
  k.HasBurst ((Burst.named Prod.fst x taken).map Prod.snd)

structure Watched (C R : Type) where
  engine : Engine C R
  taken : Taken := []

namespace Watched

variable (cfg : Config C R) (c : C)

/-- The history after a call that returns. -/
def take : Op → Taken → Taken
  | .feed msg _, taken =>
    if (cfg.cond c).takes msg cfg.lex then taken ++ [((cfg.cond c).names msg, msg)] else taken
  | .eventWorker _ _, taken | .enableRule _ _, taken | .enableEHS _, taken |
    .participants _, taken => taken
  | .resetRule name, taken =>
    match Engine.findRuleByName cfg name with
    | .ok r => if c ∈ (cfg.rule r).conditions then [] else taken
    | .error _ => taken
  | .resetRules, taken => if cfg.rmap.any fun r => c ∈ (cfg.rule r).conditions then [] else taken
  | .resetCond name, taken =>
    match Engine.findCondByName cfg name with
    | .ok c' => if c = c' then [] else taken
    | .error _ => taken
  | .resetConds, _ | .reset, _ => []

/-- A watched engine goes on as long as no call throws. -/
def step (op : Op) (w : Watched C R) : Option (Watched C R) :=
  match op.exec cfg w.engine with
  | .error _ _ => none
  | .ok _ engine => some { engine, taken := take cfg c op w.taken }

def init : Watched C R := { engine := cfg.init }

end Watched

def Output.isAlarmOf (rule : String) : Output → Bool
  | .alarm r _ => r = rule
  | .condMatch _ => false

/-- How many alarms of a rule the engine has reported. -/
def Engine.alarmsOf (cfg : Config C R) (r : R) (e : Engine C R) : ℕ :=
  e.log.countP (Output.isAlarmOf (cfg.rule r).name)

end MfExtensions
