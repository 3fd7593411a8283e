import MfExtensions.Lib.PegRules
import MfExtensions.Parse

/-!
# Rule expressions

The trees of the documented grammar of a rule expression, the tokens each is printed as, and what
it stands for in a rule.
-/

namespace MfExtensions

open Peg

/-- `alpha_lead_str` -/
structure Name where
  head : Char
  tail : List Char
  head_ok : nameStart head = true
  tail_ok : tail.all nameChar = true

/-- A string between quotes. -/
structure StrLit where
  chars : List Char
  ne_nil : chars ≠ []
  chars_ok : chars.all strChar = true

namespace Name

def chars (n : Name) : List Char := n.head :: n.tail

def str (n : Name) : String := String.ofList n.chars

def token (n : Name) : Token := ⟨n.chars, nameChar⟩

end Name

/-- The name begins with none of the words, in any letter case. -/
def Avoids (words : List String) (name : String) : Prop :=
  ∀ w ∈ words, Scanner.begins w.toList name.toList = false

instance (words : List String) (name : String) : Decidable (Avoids words name) :=
  List.decidableBAll (fun w : String => Scanner.begins w.toList name.toList = false) words

namespace StrLit

def str (s : StrLit) : String := String.ofList s.chars

def token (s : StrLit) : Token := ⟨'\'' :: (s.chars ++ ['\'']), fun _ => false⟩

end StrLit

/-- The side of a message after `.$`. -/
inductive Side
  | source
  | target

namespace Side

def argT : Side → ArgT
  | .source => .source
  | .target => .target

def char : Side → Char
  | .source => 's'
  | .target => 't'

def token (x : Side) : Token := ⟨[x.char], fun _ => false⟩

def tokens (x : Side) : List Token := [.word ".$", x.token]

end Side

inductive Value
  | real (x : RealLit)
  | bool (b : Bool)
  | str (s : StrLit)

namespace Value

variable (D : DoubleParser)

def any : Value → Any
  | .real x => .double (D.value x)
  | .bool b => .bool b
  | .str s => .string s.str

def rhv (op : CompareOp) : Value → Rhv
  | .real x => .double op (D.value x)
  | .bool b => .bool op b
  | .str s => .string op s.str

def token : Value → Token
  | .real x => ⟨x.text, RealLit.runsOn⟩
  | .bool true => .word "true"
  | .bool false => .word "false"
  | .str s => s.token

end Value

def CompareOp.token : CompareOp → Token
  | .l => ⟨['<'], (· == '=')⟩
  | .le => .word "<="
  | .e => .word "=="
  | .ne => .word "!="
  | .ge => .word ">="
  | .g => ⟨['>'], (· == '=')⟩

/-- A function of a condition, with its arguments and what it is compared with. -/
structure FuncTerm where
  function : Name
  cond : Name
  arg : Option Side
  args : List Value
  cmp : Option (CompareOp × Value)

namespace FuncTerm

variable (D : DoubleParser) (f : FuncTerm)

def tokens : List Token :=
  f.function.token :: .word "(" :: f.cond.token :: (f.arg.elim [] Side.tokens ++
    (f.args.flatMap (fun v => [.word ",", v.token]) ++
      .word ")" :: f.cmp.elim [] fun c => [c.1.token, c.2.token]))

def condArg : CondArg := (f.cond.str, f.arg.elim .none Side.argT)

def rhv : Rhv := f.cmp.elim .none fun c => c.2.rhv D c.1

/-- The object `obj` of the function the term names, with its arguments. -/
def Makes (obj : ℕ) (e : ExtFunc) : Prop :=
  ∃ c, createInstance f.function.str = .ok c ∧
    c.parseArguments obj (f.args.map (Value.any D)) = .ok (some e)

/-- The function exists and takes the arguments, and a boolean is only compared by `==` or `!=`. -/
def Accepted : Prop :=
  (∃ obj e, f.Makes D obj e) ∧ ∀ op b, f.cmp = some (op, .bool b) → op = .e ∨ op = .ne

end FuncTerm

/-! ## Boolean expressions -/

mutual

inductive BooleanPrimary
  | expr (e : BooleanOrExpr)
  | condition (n : Name)
  | function (f : FuncTerm)

inductive BooleanAndExpr
  | one (p : BooleanPrimary)
  | and (p : BooleanPrimary) (a : BooleanAndExpr)

inductive BooleanOrExpr
  | one (a : BooleanAndExpr)
  | or (a : BooleanAndExpr) (e : BooleanOrExpr)

end

mutual

def BooleanPrimary.tokens : BooleanPrimary → List Token
  | .expr e => .word "(" :: (e.tokens ++ [.word ")"])
  | .condition n => [n.token]
  | .function f => f.tokens

def BooleanAndExpr.tokens : BooleanAndExpr → List Token
  | .one p => p.tokens
  | .and p a => p.tokens ++ .word "&&" :: a.tokens

def BooleanOrExpr.tokens : BooleanOrExpr → List Token
  | .one a => a.tokens
  | .or a e => a.tokens ++ .word "||" :: e.tokens

end

mutual

/-- The conditions named, those of functions included. -/
def BooleanPrimary.conds : BooleanPrimary → List Name
  | .expr e => e.conds
  | .condition n => [n]
  | .function f => [f.cond]

def BooleanAndExpr.conds : BooleanAndExpr → List Name
  | .one p => p.conds
  | .and p a => p.conds ++ a.conds

def BooleanOrExpr.conds : BooleanOrExpr → List Name
  | .one a => a.conds
  | .or a e => a.conds ++ e.conds

end

mutual

def BooleanPrimary.functions : BooleanPrimary → List FuncTerm
  | .expr e => e.functions
  | .condition _ => []
  | .function f => [f]

def BooleanAndExpr.functions : BooleanAndExpr → List FuncTerm
  | .one p => p.functions
  | .and p a => p.functions ++ a.functions

def BooleanOrExpr.functions : BooleanOrExpr → List FuncTerm
  | .one a => a.functions
  | .or a e => a.functions ++ e.functions

end

section Denotes

variable (D : DoubleParser)

mutual

/-- The condition of a rule is the tree: the same conditions, functions and comparisons. -/
def BooleanPrimary.Denotes : BooleanPrimary → BooleanCond CondArg → Prop
  | .expr e, b => ∃ as, b = .expr as ∧ e.Denotes as
  | .condition n, b => b = .cond (n.str, .none)
  | .function f, b => ∃ obj e, f.Makes D obj e ∧ b = .func f.condArg e (f.rhv D)

def BooleanAndExpr.Denotes : BooleanAndExpr → List (BooleanCond CondArg) → Prop
  | .one p, bs => ∃ b, bs = [b] ∧ p.Denotes b
  | .and p a, bs => ∃ b bs', bs = b :: bs' ∧ p.Denotes b ∧ a.Denotes bs'

def BooleanOrExpr.Denotes : BooleanOrExpr → BooleanExpr CondArg → Prop
  | .one a, as => ∃ bs, as = [bs] ∧ a.Denotes bs
  | .or a e, as => ∃ bs as', as = bs :: as' ∧ a.Denotes bs ∧ e.Denotes as'

end

end Denotes

/-! ## Domain expressions -/

/-- How a chain of sources and targets ends: `ANY` asks for nothing. -/
inductive ChainEnd
  | none
  | any
  | str (s : StrLit)

namespace ChainEnd

def tokens : ChainEnd → List Token
  | .none => []
  | .any => [.word "=", .word "ANY"]
  | .str s => [.word "=", s.token]

/-- The string of the chain. -/
def string : ChainEnd → String
  | .str s => s.str
  | _ => ""

end ChainEnd

/-- A source or a target of a condition. -/
abbrev CondSide := Name × Side

namespace CondSide

def tokens (c : CondSide) : List Token := c.1.token :: c.2.tokens

def condArg (c : CondSide) : CondArg := (c.1.str, c.2.argT)

end CondSide

mutual

inductive DomainPrimary
  | expr (e : DomainOrExpr)
  | chain (c : CondSide) (cs : List CondSide) (last : ChainEnd)

inductive DomainAndExpr
  | one (p : DomainPrimary)
  | and (p : DomainPrimary) (a : DomainAndExpr)

inductive DomainOrExpr
  | one (a : DomainAndExpr)
  | or (a : DomainAndExpr) (e : DomainOrExpr)

end

mutual

def DomainPrimary.tokens : DomainPrimary → List Token
  | .expr e => .word "(" :: (e.tokens ++ [.word ")"])
  | .chain c cs last => CondSide.tokens c ++
    (cs.flatMap (fun c => .word "=" :: CondSide.tokens c) ++ last.tokens)

def DomainAndExpr.tokens : DomainAndExpr → List Token
  | .one p => p.tokens
  | .and p a => p.tokens ++ .word "AND" :: a.tokens

def DomainOrExpr.tokens : DomainOrExpr → List Token
  | .one a => a.tokens
  | .or a e => a.tokens ++ .word "OR" :: e.tokens

end

mutual

def DomainPrimary.conds : DomainPrimary → List Name
  | .expr e => e.conds
  | .chain c cs _ => c.1 :: cs.map Prod.fst

def DomainAndExpr.conds : DomainAndExpr → List Name
  | .one p => p.conds
  | .and p a => p.conds ++ a.conds

def DomainOrExpr.conds : DomainOrExpr → List Name
  | .one a => a.conds
  | .or a e => a.conds ++ e.conds

end

mutual

/-- The condition of a rule is the tree: the same sources, targets and strings. -/
def DomainPrimary.Denotes : DomainPrimary → DomainCond String → Prop
  | .expr e, b => ∃ as, b = .expr as ∧ e.Denotes as
  | .chain c cs last, b => b = .chain ((c :: cs).map CondSide.condArg) last.string

def DomainAndExpr.Denotes : DomainAndExpr → List (DomainCond String) → Prop
  | .one p, bs => ∃ b, bs = [b] ∧ p.Denotes b
  | .and p a, bs => ∃ b bs', bs = b :: bs' ∧ p.Denotes b ∧ a.Denotes bs'

def DomainOrExpr.Denotes : DomainOrExpr → DomainExpr String → Prop
  | .one a, as => ∃ bs, as = [bs] ∧ a.Denotes bs
  | .or a e, as => ∃ bs as', as = bs :: as' ∧ a.Denotes bs ∧ e.Denotes as'

end

/-! ## Rule expressions -/

/-- A boolean expression and what follows `WHERE`. -/
structure RuleExpr where
  boolean : BooleanOrExpr
  domain : Option DomainOrExpr

namespace RuleExpr

variable (t : RuleExpr)

def tokens : List Token :=
  t.boolean.tokens ++ t.domain.elim [] fun d => .word "WHERE" :: d.tokens

def domainConds : List Name := t.domain.elim [] DomainOrExpr.conds

/-- The text is the tree, with white space as it likes. -/
def Spelled (text : String) : Prop := ∃ rest, Spells t.tokens text.toList rest ∧ skip rest = []

/-- The tree with a space before each token. -/
def print : String := String.ofList (spaced t.tokens)

/-- The expressions of the rule are the tree. -/
def Denotes (D : DoubleParser) (r : RuleParse) : Prop :=
  t.boolean.Denotes D r.booleanExpr ∧
    t.domain.elim (r.domainExpr = []) fun d => d.Denotes r.domainExpr

end RuleExpr

end MfExtensions
