import MfExtensions.Lib.Peg
import MfExtensions.Rule

/-!
# Parsing a rule

`ma_parse.cpp`: the two grammars of a rule expression, whose actions fill the rule, and
`parse_condition_expr`. The parsers have the names of the grammars' rules. `qi::double_` is taken
from outside.
-/

namespace MfExtensions

open Exec Peg Peg.Parser

/-! ## Functions -/

/-- The classes registered with `ma_function_factory`. -/
inductive FuncClass
  | count
  | countPercent
  | isSyncd

def createInstance (funcName : String) : Except Err FuncClass :=
  if funcName = "count" then .ok .count
  else if funcName = "count_percent" then .ok .countPercent
  else if funcName = "is_syncd" then .ok .isSyncd
  else .error (.runtime "unknown function name while creating instance of ma_function")

/-- `boost::any_cast<std::string>`. -/
def Any.castString : Any → Except Err String
  | .string s => .ok s
  | _ => .error .badAnyCast

/-- The function with its arguments, `none` where `parse_arguments` rejects them. -/
def FuncClass.parseArguments (obj : ℕ) : FuncClass → List Any → Except Err (Option ExtFunc)
  | .count, [] => .ok (some (.count .none))
  | .count, a :: _ => do
    let type := (← a.castString).toUpper
    if type = "SOURCE" then return some (.count .source)
    else if type = "TARGET" then return some (.count .target)
    else if type = "MESSAGE" then return some (.count .none)
    else return none
  | .countPercent, a :: b :: _ => do
    let type := (← a.castString).toUpper
    if type = "SOURCE" then return some (.countPercent .source (← b.castString))
    else if type = "TARGET" then return some (.countPercent .target (← b.castString))
    else return none
  | .countPercent, _ => .ok none
  | .isSyncd, _ => .ok (some (.isSyncd obj))

/-! ## Actions -/

/-- `cond_arg_t`: a condition, which its name identifies, and the argument after `.$`. -/
abbrev CondArg := String × ArgT

/-- What parsing changes of a rule. `notified` is the order in which the rule is put on the lists
of its conditions: of the status (`none`), the sources and the targets. -/
structure RuleParse where
  conditions : List (String × Bool) := []
  notified : List (String × ArgT) := []
  /-- how many functions have been created -/
  functions : ℕ := 0
  booleanExpr : BooleanExpr CondArg := []
  domainExpr : DomainExpr String := []

namespace RuleParse

variable (condMap : List String)

/-- The condition is in `conditions_idx`. -/
def has (r : RuleParse) (name : String) : Bool := r.conditions.any (·.1 == name)

def insertConditionPtr (name : String) (primitive : Bool) : EStateM Err RuleParse Unit := do
  if (← get).has name || condMap.elem name then
    modify fun r =>
      { r with
        conditions := MfExtensions.insertConditionPtr name primitive r.conditions
        notified := if r.has name then r.notified else r.notified ++ [(name, ArgT.none)] }
  else throw (.runtime ("insert_cond_ptr: condition " ++ name ++ " not found"))

def updateNotifyList (name : String) (arg : ArgT) : EStateM Err RuleParse Unit := do
  if (← get).has name then
    modify fun r => { r with notified := r.notified ++ [(name, arg)] }
  else throw (.runtime ("update_notify_list: name '" ++ name ++ "' not found"))

def getCondIdx (name : String) : EStateM Err RuleParse String := do
  if (← get).has name then return name
  else throw (.runtime ("get_cond_idx: name '" ++ name ++ "' not found"))

def insertCondArg (name : String) (arg : Char) : EStateM Err RuleParse CondArg := do
  let type : ArgT := if arg = 's' then .source else .target
  updateNotifyList name type
  return (← getCondIdx name, type)

def insertPrimitiveCond (name : String) : EStateM Err RuleParse (BooleanCond CondArg) := do
  insertConditionPtr condMap name true
  return .cond (name, .none)

/-- The function `ma_boolean_cond::insert_ext_func` makes. -/
def insertExtFunc (function name : String) (condArg : Option Char) (funcArgs : List Any) :
    EStateM Err RuleParse (CondArg × ExtFunc) := do
  insertConditionPtr condMap name false
  let type : ArgT :=
    if condArg = some 's' then .source else if condArg = some 't' then .target else .none
  let c ← orThrow (createInstance function)
  let obj := (← get).functions
  modify fun r => { r with functions := r.functions + 1 }
  match ← orThrow (c.parseArguments obj funcArgs) with
  | some f => return ((name, type), f)
  | none => throw (.runtime ("arguments rejected by " ++ function))

def insertCompareOpBool (op : CompareOp) (rhv : Bool) : EStateM Err RuleParse Rhv :=
  match op with
  | .e => return .bool .e rhv
  | .ne => return .bool .ne rhv
  | _ => throw (.runtime "error in parsing rule: booleans can only use == or !=")

def setBooleanExpr (e : BooleanExpr CondArg) : EStateM Err RuleParse Unit :=
  modify fun r => { r with booleanExpr := e }

def setDomainExpr (e : DomainExpr String) : EStateM Err RuleParse Unit :=
  modify fun r => { r with domainExpr := e }

end RuleParse

/-! ## Tokens -/

/-- The number after a sign is digits, with a point and an exponent where there are any. -/
structure RealLit where
  sign : Option Bool
  int : Fin 10 × List (Fin 10)
  frac : Option (List (Fin 10))
  exp : Option (Option Bool × Fin 10 × List (Fin 10))

namespace RealLit

def digit (d : Fin 10) : Char := Char.ofNat (48 + d.val)

/-- A sign, `-` if `true`. -/
def signText : Option Bool → List Char
  | none => []
  | some false => ['+']
  | some true => ['-']

def text (x : RealLit) : List Char :=
  signText x.sign ++ digit x.int.1 :: x.int.2.map digit ++
    (match x.frac with
    | none => []
    | some ds => '.' :: ds.map digit) ++
    match x.exp with
    | none => []
    | some (sign, d, ds) => 'e' :: signText sign ++ digit d :: ds.map digit

/-- The characters a number may go on with. -/
def runsOn (c : Char) : Bool := c.isDigit || c == '.' || c == 'e' || c == 'E'

end RealLit

/-- `qi::double_`, past the white space: it reads a number as far as it goes, and matches nothing
that does not start as a number, an infinity or a NaN does. -/
structure DoubleParser where
  scan : Scanner Float
  value : RealLit → Float
  scan_text : ∀ (x : RealLit) (more : List Char), (∀ c ∈ more.head?, RealLit.runsOn c = false) →
    scan.run (x.text ++ more) = some (value x, more)
  scan_none : ∀ (c : Char) (cs : List Char), c.isDigit = false → c ∉ "+-.iInN".toList →
    scan.run (c :: cs) = none

/-- `a-zA-Z_` -/
def nameStart (c : Char) : Bool := c.isAlpha || c == '_'

/-- `a-zA-Z_0-9` -/
def nameChar (c : Char) : Bool := c.isAlphanum || c == '_'

/-- `ascii::char_ - '\''` -/
def strChar (c : Char) : Bool := c.toNat < 128 && c != '\''

abbrev RuleParser := Parser Err RuleParse

def noCase (w : String) : RuleParser Unit := token (.noCase w.toList)

def identifier : RuleParser (List Char) := token (.name nameStart nameChar)

def str : RuleParser String := do return String.ofList (← token (.quoted '\'' strChar))

/-- `char_("st")` -/
def charSt : RuleParser Char := token (.sat fun c => c == 's' || c == 't')

def bool : RuleParser Bool := (do lit "true"; return true) <|> (do lit "false"; return false)

/-! ## The WHERE clause -/

namespace DomainExprParser

def keywords : RuleParser Unit := noCase "AND" <|> noCase "OR" <|> noCase "ANY"

def key : RuleParser String := do return String.ofList (← diff identifier keywords)

/-- A source or a target in a chain. -/
def condArg : RuleParser CondArg := do
  let a ← key
  lit ".$"
  let arg ← charSt
  effect (RuleParse.insertCondArg a arg)

def domainCond (domainExpr : RuleParser (DomainExpr String)) : RuleParser (DomainCond String) :=
  (do
    lit "("
    let e ← domainExpr
    lit ")"
    return .expr e) <|>
  (do
    let conds ← list condArg (lit "=")
    let s ← opt (do
      lit "="
      str <|> (do lit "ANY"; return ""))
    return .chain conds (s.getD ""))

def domainAndexpr (domainExpr : RuleParser (DomainExpr String)) :
    RuleParser (List (DomainCond String)) :=
  list (domainCond domainExpr) (lit "AND")

def domainExpr : RuleParser (DomainExpr String) :=
  rule fun domainExpr => list (domainAndexpr domainExpr) (lit "OR")

end DomainExprParser

/-! ## The boolean expression -/

namespace BooleanExprParser

variable (D : DoubleParser) (condMap : List String)

def keywords : RuleParser Unit := noCase "AND" <|> noCase "OR"

def key : RuleParser String := do return String.ofList (← diff identifier keywords)

def compareOp : RuleParser CompareOp :=
  (do lit "=="; return .e) <|> (do lit "!="; return .ne) <|> (do lit "<="; return .le) <|>
    (do lit ">="; return .ge) <|> (do lit "<"; return .l) <|> (do lit ">"; return .g)

def arg : RuleParser Any :=
  (do return .double (← token D.scan)) <|> (do return .bool (← bool)) <|>
    (do return .string (← str))

def args : RuleParser (List Any) := list (arg D) (lit ",")

/-- The comparison after a function. -/
def comparison : RuleParser Rhv := do
  let op ← compareOp
  (do return .double op (← token D.scan)) <|>
    (do
      let b ← bool
      effect (RuleParse.insertCompareOpBool op b)) <|>
    (do return .string op (← str))

/-- A function of a condition. -/
def function : RuleParser (BooleanCond CondArg) := do
  let a ← key
  lit "("
  let d ← key
  let b ← opt (do
    lit ".$"
    charSt)
  let e ← opt (do
    lit ","
    args D)
  lit ")"
  -- the action of `)`: what follows is optional, so it is run once
  let f ← effect (RuleParse.insertExtFunc condMap a d b (e.getD []))
  let rhv ← opt (comparison D)
  return .func f.1 f.2 (rhv.getD .none)

def booleanCond (booleanExpr : RuleParser (BooleanExpr CondArg)) :
    RuleParser (BooleanCond CondArg) :=
  (do
    lit "("
    let e ← booleanExpr
    lit ")"
    return .expr e) <|>
  function D condMap <|>
  (do
    let a ← key
    effect (RuleParse.insertPrimitiveCond condMap a))

def booleanAndexpr (booleanExpr : RuleParser (BooleanExpr CondArg)) :
    RuleParser (List (BooleanCond CondArg)) :=
  list (booleanCond D condMap booleanExpr) (lit "&&")

def booleanExpr : RuleParser (BooleanExpr CondArg) :=
  rule fun booleanExpr => list (booleanAndexpr D condMap booleanExpr) (lit "||")

end BooleanExprParser

/-- The clause after `WHERE`, if there is one. -/
def whereClause : RuleParser (Option Unit) :=
  opt (do
    lit "WHERE"
    let e ← DomainExprParser.domainExpr
    effect (RuleParse.setDomainExpr e))

/-- The grammar `parse_condition_expr` reads. -/
def conditionExpr (D : DoubleParser) (condMap : List String) : RuleParser (Option Unit) := do
  let e ← BooleanExprParser.booleanExpr D condMap
  effect (RuleParse.setBooleanExpr e)
  whereClause

/-- `parse_condition_expr`: whether all of the text is read. -/
def parseConditionExpr (D : DoubleParser) (condMap : List String) (s : String) :
    EStateM Err RuleParse Bool := fun r =>
  match (conditionExpr D condMap).run s.toList r with
  | .ok _ rest r => .ok (skip rest).isEmpty r
  | .fail r => .ok false r
  | .error e => .error e r

end MfExtensions
