import MfExtensions.Condition
import MfExtensions.Lib.PegYields
import MfExtensions.Parse

/-!
# Parsing a test expression

`ma_parse.cpp`: the grammar of the test a condition may put to a message, and
`parse_condition_test`. Its tokens are spelled as those of `boolean_expr_parser` are; its numbers
are integers where they can be. Nothing is parsed into a rule, whose state the tokens leave alone.
-/

namespace MfExtensions

open Exec Peg Peg.Parser

/-! ## Functions -/

/-- The classes registered with `ma_test_function_factory`. -/
inductive TestClass
  | grpToNumber

namespace TestClass

def createInstance (funcName : String) : Except Err TestClass :=
  if funcName = "grp_to_number" then .ok .grpToNumber
  else .error (.runtime "unknown test function name")

/-- The function with its arguments, `none` where `parse_arguments` rejects them. -/
def parseArguments : TestClass → List Any → Except Err (Option TestFunc)
  | .grpToNumber, [] => .ok none
  | .grpToNumber, .int group :: _ => .ok (some (.grpToNumber group))
  | .grpToNumber, _ :: _ => .error .badAnyCast

end TestClass

/-- `std::exception::what`. -/
def Err.what : Err → String
  | .runtime what => what
  | .logic => "Attempt to access an uninitialized boost::match_results<> class."
  | .badAnyCast => "boost::bad_any_cast: failed conversion using boost::any_cast"
  | .badLexicalCast =>
    "bad lexical cast: source type value could not be interpreted as target"
  | .assertion | .emptyList => ""

/-- The function `ma_cond_test_primary::insert_func` makes. -/
def insertFunc (name : String) (args : List Any) : Except Err TestFunc := do
  let f ← TestClass.createInstance name
  let rejected (e : Err) : Err :=
    .runtime ("arguments rejected by test function " ++ name ++ "() with an exception:\n" ++ e.what)
  match f.parseArguments args with
  | .ok (some f) => return f
  | .ok none => throw (rejected (.runtime ("arguments rejected by test function " ++ name)))
  | .error e => throw (rejected e)

/-- What `ma_cond_test_primary::insert_compare_op` compares with. -/
def insertCompareOp (op : CompareOp) : Any → Rhv
  | .bool v => .bool op v
  | .int v => .double op (Float.ofInt v)
  | .double v => .double op v
  | .string v => .string op v

/-! ## Integers -/

/-- The number the decimal digits stand for. -/
def digitsValue (ds : List Char) : ℕ := ds.foldl (fun n c => 10 * n + (c.toNat - '0'.toNat)) 0

def signed (negative : Bool) (n : ℕ) : ℤ := if negative then -n else n

/-- An `int`. -/
def IsInt (n : ℤ) : Prop := -2 ^ 31 ≤ n ∧ n < 2 ^ 31

instance (n : ℤ) : Decidable (IsInt n) := inferInstanceAs (Decidable (_ ∧ _))

/-- The digits, if there are any and their number is an `int`. -/
def digitsRun (negative : Bool) (cs : List Char) : Option (ℤ × List Char) :=
  let ds := cs.takeWhile Char.isDigit
  let n := signed negative (digitsValue ds)
  if ds ≠ [] ∧ IsInt n then some (n, cs.dropWhile Char.isDigit) else none

def intRun : List Char → Option (ℤ × List Char)
  | '-' :: cs => digitsRun true cs
  | '+' :: cs => digitsRun false cs
  | cs => digitsRun false cs

theorem digitsRun_le {negative : Bool} {cs rest : List Char} {n : ℤ}
    (h : digitsRun negative cs = some (n, rest)) : rest.length ≤ cs.length := by
  unfold digitsRun at h
  simp only [] at h
  split_ifs at h
  cases h
  exact List.length_dropWhile_le _ _

theorem intRun_le {cs rest : List Char} {n : ℤ} (h : intRun cs = some (n, rest)) :
    rest.length ≤ cs.length := by
  unfold intRun at h
  split at h
  · exact (digitsRun_le h).trans (Nat.le_succ _)
  · exact (digitsRun_le h).trans (Nat.le_succ _)
  · exact digitsRun_le h

namespace CondTestExprParser

open BooleanExprParser (key compareOp)

variable (D : DoubleParser)

/-- `qi::int_`: nothing is matched where the number is no `int`. -/
def int : RuleParser ℤ := token ⟨intRun, intRun_le⟩

/-- `char_(".eE")` -/
def charPointExp : RuleParser Char := token (.sat fun c => c == '.' || c == 'e' || c == 'E')

def value : RuleParser Any :=
  (do
    let n ← int
    notAhead charPointExp
    return .int n) <|>
  (do return .double (← token D.scan)) <|>
  (do return .bool (← bool)) <|>
  (do return .string (← str))

def values : RuleParser (List Any) := list (value D) (lit ",")

/-- A test function, with its arguments and what it is compared with. -/
def function : RuleParser TestPrimary := do
  let a ← key
  lit "("
  let b ← opt (values D)
  lit ")"
  let f ← effect (orThrow (insertFunc a (b.getD [])))
  let rhv ← opt (do
    let c ← compareOp
    return insertCompareOp c (← value D))
  return .func f (rhv.getD .none)

def testPrimary (testExpr : RuleParser (List (List TestPrimary))) : RuleParser TestPrimary :=
  (do
    lit "("
    let e ← testExpr
    lit ")"
    return .expr e) <|>
  function D

def testAndexpr (testExpr : RuleParser (List (List TestPrimary))) :
    RuleParser (List TestPrimary) :=
  list (testPrimary D testExpr) (lit "&&")

def testExpr : RuleParser (List (List TestPrimary)) :=
  rule fun testExpr => list (testAndexpr D testExpr) (lit "||")

end CondTestExprParser

/-- `parse_condition_test`: the test, `none` if not all of the text is one. -/
def parseConditionTest (D : DoubleParser) (s : String) :
    Except Err (Option (List (List TestPrimary))) :=
  if s.isEmpty then .ok (some [])
  else
    match (CondTestExprParser.testExpr D).run s.toList {} with
    | .ok e rest _ => .ok (if (skip rest).isEmpty then some e else none)
    | .fail _ => .ok none
    | .error e => .error e

end MfExtensions
