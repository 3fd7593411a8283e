import MfExtensions.Hitmap
import MfExtensions.Lib.Exec

/-!
# Conditions

`ma_condition`: a message is filtered by severity, source and category, matched against the
regular expression, put to the test expression and then captured by the hitmap. The fields of
the last message that passed the regular expression are kept for the test functions and the
custom functions of the rules; the groups among them, and those of the cells, point into the
strings of the last message fed.
-/

namespace MfExtensions

open Exec

/-- The state of a condition. `texts`, `tgt` and `what` are its temporaries that outlive a
message. -/
structure Condition where
  hitmap : Hitmap := {}
  texts : Texts := {}
  tgt : String := ""
  what : Smatch := {}
  lastSrc : String := ""
  lastTgt : String := ""
  lastWhat : Smatch := {}
  catchedMessages : ℕ := 0

namespace Condition

def reset (c : Condition) : Condition := { c with hitmap := c.hitmap.reset, catchedMessages := 0 }

/-- `get_msg_group`. -/
def msgGroup (c : Condition) (i : ℕ) : Except Err String :=
  if i > c.lastWhat.subs.length then .error (.runtime "group does not exist")
  else c.lastWhat.sub c.texts i

/-- `get_arg` of a condition domain. -/
def arg (c : Condition) (v : CondDomain) : ArgT → Except Err String
  | .source => c.hitmap.source v
  | .target => c.hitmap.target v
  | .message => c.hitmap.message v
  | .group n => c.hitmap.messageGroup c.texts v n
  | .none => .error (.runtime "condition::get_arg() unknow arg type")

end Condition

def hexDigit (c : Char) : Option ℕ :=
  if '0' ≤ c ∧ c ≤ '9' then some (c.toNat - '0'.toNat)
  else if 'a' ≤ c ∧ c ≤ 'f' then some (c.toNat - 'a'.toNat + 10)
  else if 'A' ≤ c ∧ c ≤ 'F' then some (c.toNat - 'A'.toNat + 10)
  else none

/-- The number a run of hexadecimal digits starts with. -/
def hexPrefix (acc : ℕ) : List Char → ℕ
  | [] => acc
  | c :: cs =>
    match hexDigit c with
    | some d => hexPrefix (16 * acc + d) cs
    | none => acc

/-- `strtol(s, NULL, 0)` of a string that starts with `0x` or `0X`. -/
def strtolHex (s : String) : ℤ := min (hexPrefix 0 (s.toList.drop 2)) (2 ^ 63 - 1)

variable (L : LexicalCast)

def TestFunc.evaluate (c : Condition) : TestFunc → Except Err Any
  | .grpToNumber group => do
    let s ← c.msgGroup (sizeT group)
    let lead := s.toList.take 2
    if lead = ['0', 'x'] ∨ lead = ['0', 'X'] then
      return .double (Float.ofInt (strtolHex s))
    else
      match L.toDouble s with
      | some v => return .double v
      | none => throw .badLexicalCast

mutual

def TestPrimary.evaluate (c : Condition) : TestPrimary → Except Err Bool
  | .expr e => if e.isEmpty then .ok true else TestPrimary.evaluateOr c e
  | .func f rhv => do rhv.test (← f.evaluate L c)

def TestPrimary.evaluateAnd (c : Condition) : List TestPrimary → Except Err Bool
  | [] => .ok true
  | p :: ps => do if ← p.evaluate c then TestPrimary.evaluateAnd c ps else return false

def TestPrimary.evaluateOr (c : Condition) : List (List TestPrimary) → Except Err Bool
  | [] => .ok false
  | a :: as => do
    if ← TestPrimary.evaluateAnd c a then return true else TestPrimary.evaluateOr c as

end

namespace Condition

/-- The strings of the message are assigned to those of the condition. -/
def extractFields (msg : Msg) : EStateM Err Condition Unit :=
  modify fun c => { c with texts := msg.texts }

/-- Whether `any` or one of the regular expressions matches the whole of `s`, the string `buffer`;
the match is kept in `what`. -/
def matchAny (any : Bool) (es : List Regex) (buffer : Buffer) (s : String) :
    EStateM Err Condition Bool :=
  if any then pure true
  else
    match es.findSome? fun e => e.regexMatch s with
    | some subs => do
      modify fun c => { c with what := { buffer, subs } }
      return true
    | none => pure false

def matchSrcs (k : CondConfig) (src : String) : EStateM Err Condition Bool :=
  matchAny k.anySrc k.eSrcs .src src

def matchCats (k : CondConfig) (cat : String) : EStateM Err Condition Bool :=
  matchAny k.anyCat k.eCats .cat cat

def matchBody (k : CondConfig) (bdy : String) : EStateM Err Condition Bool :=
  if k.matchAny then pure true
  else
    match k.e.regexSearch bdy with
    | none => pure false
    | some subs => do
      let w : Smatch := { subs }
      modify fun c => { c with what := w }
      if k.perTarget then
        if k.targetGroup > w.subs.length then
          throw (.runtime "match_body: target group does not exit")
        let tgt ← orThrow (w.sub { bdy } k.targetGroup)
        modify fun c => { c with tgt }
      return true

def updateFields (src : String) : EStateM Err Condition Unit :=
  modify fun c => { c with lastSrc := src, lastTgt := c.tgt, lastWhat := c.what }

def matchTest (k : CondConfig) : EStateM Err Condition Bool := do
  orThrow (TestPrimary.evaluate L (← get) (.expr k.testExpr))

/-- `hitmap.capture`, and one more message caught. -/
def capture (k : CondConfig) (msg : Msg) :
    EStateM Err Condition (Change × Option Hitmap.CellEvent) := do
  let c ← get
  match c.hitmap.capture k msg msg.app c.tgt c.what with
  | none => throw .emptyList
  | some (hitmap, change, te) =>
    modify fun c => { c with hitmap, catchedMessages := c.catchedMessages + 1 }
    return (change, te)

/-- `ma_condition::match`: what the message changed and the event to schedule, `none` if the
message does not pass. -/
def matchMsg (k : CondConfig) (msg : Msg) :
    EStateM Err Condition (Option (Change × Option Hitmap.CellEvent)) := do
  extractFields msg
  if msg.sev.toNat < k.severity.toNat then return none
  if !(← matchSrcs k msg.app) then return none
  if !(← matchCats k msg.cat) then return none
  if !(← matchBody k msg.text) then return none
  updateFields msg.app
  if !(← matchTest L k) then return none
  return some (← capture k msg)

/-- `ma_condition::event`: the condition after a scheduled event, and whether a status flipped. -/
def event (k : CondConfig) (s t : ℕ) (ts : ℤ) (c : Condition) : Condition × Bool :=
  let (hitmap, flipped) := c.hitmap.event k s t ts
  ({ c with hitmap }, flipped)

end Condition

end MfExtensions
