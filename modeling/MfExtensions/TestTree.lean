import MfExtensions.RuleTree
import MfExtensions.TestParse

/-!
# Test expressions

The trees of the grammar of a test, the tokens each is printed as, and what it says of a condition
(`TestOrExpr.test`).
-/

namespace MfExtensions

open Peg

namespace RealLit

def intDigits (x : RealLit) : List Char := (x.int.1 :: x.int.2).map digit

/-- The number before the point. -/
def intValue (x : RealLit) : ℤ := signed (x.sign == some true) (digitsValue x.intDigits)

/-- The `int` that is written, if there is no point and no exponent. -/
def asInt (x : RealLit) : Option ℤ :=
  if x.frac.isNone ∧ x.exp.isNone ∧ IsInt x.intValue then some x.intValue else none

end RealLit

/-- A value of a test: a number is an `int` where it can be. -/
def Value.testAny (D : DoubleParser) : Value → Any
  | .real x => x.asInt.elim (.double (D.value x)) .int
  | .bool b => .bool b
  | .str s => .string s.str

/-- A test function, with its arguments and what it is compared with. -/
structure TestTerm where
  function : Name
  args : List Value
  cmp : Option (CompareOp × Value)

namespace TestTerm

variable (D : DoubleParser) (L : LexicalCast) (f : TestTerm)

def argTokens : List Value → List Token
  | [] => []
  | [v] => [v.token]
  | v :: w :: vs => v.token :: .word "," :: argTokens (w :: vs)

def tokens : List Token :=
  f.function.token :: .word "(" :: (argTokens f.args ++
    .word ")" :: f.cmp.elim [] fun c => [c.1.token, c.2.token])

/-- The function, or what is thrown because there is none or it does not take the arguments. -/
def make : Except Err TestFunc := insertFunc f.function.str (f.args.map (Value.testAny D))

def rhv : Rhv := f.cmp.elim .none fun c => insertCompareOp c.1 (c.2.testAny D)

/-- The group of the message the term is about. -/
def group : Option ℤ :=
  match f.args with
  | .real x :: _ => x.asInt
  | _ => none

/-- The one test function there is, of a group. -/
def Accepted : Prop := f.function.str = "grp_to_number" ∧ f.group.isSome

instance : Decidable f.Accepted := inferInstanceAs (Decidable (_ ∧ _))

/-- What the term says of a condition: the number its group stands for, compared. -/
def test (c : Condition) : Except Err Bool := do
  (f.rhv D).test (← TestFunc.evaluate L c (.grpToNumber (f.group.getD 0)))

end TestTerm

mutual

inductive TestTree
  | expr (e : TestOrExpr)
  | term (f : TestTerm)

inductive TestAndExpr
  | one (p : TestTree)
  | and (p : TestTree) (a : TestAndExpr)

inductive TestOrExpr
  | one (a : TestAndExpr)
  | or (a : TestAndExpr) (e : TestOrExpr)

end

mutual

def TestTree.tokens : TestTree → List Token
  | .expr e => .word "(" :: (e.tokens ++ [.word ")"])
  | .term f => f.tokens

def TestAndExpr.tokens : TestAndExpr → List Token
  | .one p => p.tokens
  | .and p a => p.tokens ++ .word "&&" :: a.tokens

def TestOrExpr.tokens : TestOrExpr → List Token
  | .one a => a.tokens
  | .or a e => a.tokens ++ .word "||" :: e.tokens

end

mutual

/-- The terms, in the order they are read. -/
def TestTree.terms : TestTree → List TestTerm
  | .expr e => e.terms
  | .term f => [f]

def TestAndExpr.terms : TestAndExpr → List TestTerm
  | .one p => p.terms
  | .and p a => p.terms ++ a.terms

def TestOrExpr.terms : TestOrExpr → List TestTerm
  | .one a => a.terms
  | .or a e => a.terms ++ e.terms

end

section Test

variable (D : DoubleParser) (L : LexicalCast) (c : Condition)

mutual

/-- What the tree says of a condition, from left to right and no further than needed. -/
def TestTree.test : TestTree → Except Err Bool
  | .expr e => e.test
  | .term f => f.test D L c

def TestAndExpr.test : TestAndExpr → Except Err Bool
  | .one p => p.test
  | .and p a => do if ← p.test then a.test else return false

def TestOrExpr.test : TestOrExpr → Except Err Bool
  | .one a => a.test
  | .or a e => do if ← a.test then return true else e.test

end

end Test

section Compile

variable (D : DoubleParser)

mutual

/-- The test the tree is parsed to, or the first exception. -/
def TestTree.compile : TestTree → Except Err TestPrimary
  | .expr e => do return .expr (← e.compile)
  | .term f => do return .func (← f.make D) (f.rhv D)

def TestAndExpr.compile : TestAndExpr → Except Err (List TestPrimary)
  | .one p => do return [← p.compile]
  | .and p a => do return (← p.compile) :: (← a.compile)

def TestOrExpr.compile : TestOrExpr → Except Err (List (List TestPrimary))
  | .one a => do return [← a.compile]
  | .or a e => do return (← a.compile) :: (← e.compile)

end

end Compile

namespace TestOrExpr

variable (t : TestOrExpr)

/-- The text is the tree, with white space as it likes. -/
def Spelled (text : String) : Prop := ∃ rest, Spells t.tokens text.toList rest ∧ skip rest = []

/-- The tree with a space before each token. -/
def print : String := String.ofList (spaced t.tokens)

end TestOrExpr

end MfExtensions
