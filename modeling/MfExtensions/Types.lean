import Mathlib.Algebra.Ring.Int.Defs
import Mathlib.Data.String.Basic
import MfExtensions.Lib.OrdMap

/-!
# The message analyzer's types

`ma_types.h`, the compare operators, and what the analyzer takes from outside: compiled regular
expressions, `boost::lexical_cast` and the messages. A `double` is a `Float`, a `size_t` and an
index a `ℕ`, a `time_t` its seconds as an `ℤ`.
-/

namespace MfExtensions

/-- What the analyzer throws, and how else a call can fail to return. -/
inductive Err
  /-- `std::runtime_error` -/
  | runtime (what : String)
  /-- `std::logic_error`, of an uninitialised `boost::smatch` -/
  | logic
  /-- `boost::bad_any_cast` -/
  | badAnyCast
  /-- `boost::bad_lexical_cast` -/
  | badLexicalCast
  /-- a failed `assert` -/
  | assertion
  /-- `front()` or `pop_front()` of an empty list, which C++ leaves undefined -/
  | emptyList
  deriving DecidableEq

/-- `D_ANY`: every index. -/
def dAny : ℤ := -1

/-- `D_NIL`: no index. -/
def dNil : ℤ := -2

/-- A first and a last index. -/
abbrev CondRange := ℤ × ℤ

/-- The domain of a condition: a source and a target, each an index, `D_ANY` or `D_NIL`. -/
abbrev CondDomain := ℤ × ℤ

/-- One domain for each condition of a rule. -/
abbrev Domain := List CondDomain

/-- Alternative domains. -/
abbrev Domains := List Domain

/-- `idx_t`: the index of each source or target name. -/
abbrev IdxMap := OrdMap String ℕ

inductive ArgT
  | none
  | source
  | target
  | message
  | group (n : ℕ)
  deriving DecidableEq

inductive CompareOp
  | l
  | le
  | e
  | ne
  | ge
  | g
  deriving DecidableEq

def compare {T : Type} [LT T] [DecidableLT T] [LE T] [DecidableLE T] [BEq T] (op : CompareOp)
    (v rhv : T) : Bool :=
  match op with
  | .l => v < rhv
  | .le => v ≤ rhv
  | .e => v == rhv
  | .ne => v != rhv
  | .ge => rhv ≤ v
  | .g => rhv < v

/-- The literal a function's result is compared with, if any. -/
inductive Rhv
  | none
  | bool (op : CompareOp) (v : Bool)
  | double (op : CompareOp) (v : Float)
  | string (op : CompareOp) (v : String)

/-- A `boost::any` as the functions return it. -/
inductive Any
  | bool (v : Bool)
  | int (v : ℤ)
  | double (v : Float)
  | string (v : String)

/-- The outcome of a function term: its result cast to the type of the literal and compared with
it, or cast to `bool` if there is no literal. -/
def Rhv.test : Rhv → Any → Except Err Bool
  | .none, .bool b => .ok b
  | .bool op v, .bool b => .ok (compare op b v)
  | .string op v, .string s => .ok (compare op s v)
  | .double op v, .int i => .ok (compare op (Float.ofInt i) v)
  | .double op v, .double d => .ok (compare op d v)
  | _, _ => .error .badAnyCast

/-- `(size_t)i`. -/
def sizeT (i : ℤ) : ℕ := (i % 2 ^ 64).toNat

/-- `(unsigned)i`. -/
def unsigned (i : ℤ) : ℕ := (i % 2 ^ 32).toNat

inductive SevCode
  | debug
  | info
  | warning
  | error
  deriving DecidableEq

def SevCode.toNat : SevCode → ℕ
  | .debug => 0
  | .info => 1
  | .warning => 2
  | .error => 3

/-- A `qt_mf_msg` as the analyzer reads it: `text` is `text(false)`, `time` is `time().tv_sec`. -/
structure Msg where
  sev : SevCode
  app : String
  cat : String
  text : String
  time : ℤ
  deriving DecidableEq

/-- The strings a condition copies from every message it is fed: `src_`, `cat_` and `bdy_`. -/
structure Texts where
  src : String := ""
  cat : String := ""
  bdy : String := ""

def Msg.texts (msg : Msg) : Texts where
  src := msg.app
  cat := msg.cat
  bdy := msg.text

/-- The string a match was made in. -/
inductive Buffer
  | src
  | cat
  | bdy

def Texts.read (x : Texts) : Buffer → String
  | .src => x.src
  | .cat => x.cat
  | .bdy => x.bdy

/-- Where the whole match and its groups begin and end. -/
abbrev SubMatches := List (ℕ × ℕ)

/-- A `boost::smatch`. It holds iterators into the string it was made in, here as positions, and
nothing of what the string was then; no sub-match if no match was made. -/
structure Smatch where
  buffer : Buffer := .bdy
  subs : SubMatches := []

/-- `std::string(first, second)`, of what stands in the string now. C++ leaves a read through
iterators undefined once the string was assigned to. A short string is overwritten in place, and
such a read gives the characters that stand there. -/
def slice (s : String) (p : ℕ × ℕ) : String := String.ofList ((s.toList.take p.2).drop p.1)

/-- `what[i]`: past the last group it is the unmatched sub-match, an empty string. -/
def Smatch.sub (x : Texts) (w : Smatch) (i : ℕ) : Except Err String :=
  if w.subs.isEmpty then .error .logic else .ok (slice (x.read w.buffer) (w.subs.getD i (0, 0)))

/-- A compiled `boost::regex`, by what `regex_match` and `regex_search` find with it. -/
structure Regex where
  regexMatch : String → Option SubMatches
  regexSearch : String → Option SubMatches

/-- The regular expression that is the text `s` itself. -/
def Regex.literal (s : String) : Regex where
  regexMatch t := if t = s then some [(0, s.toList.length)] else none
  regexSearch t := (t.toList.tails.findIdx? (s.toList.isPrefixOf ·)).map fun i =>
    [(i, i + s.toList.length)]

/-- The regular expression `(.*)`, on texts of one line. -/
def Regex.wholeText : Regex where
  regexMatch s := some [(0, s.toList.length), (0, s.toList.length)]
  regexSearch s := some [(0, s.toList.length), (0, s.toList.length)]

/-- `boost::lexical_cast`, with `none` where it throws. -/
structure LexicalCast where
  toDouble : String → Option Float
  toUInt64 : String → Option UInt64

/-- The test functions a condition can call. -/
inductive TestFunc
  | grpToNumber (group : ℤ)

/-- `ma_cond_test_primary`: a test expression is a list of and-expressions, alternatives, each a
list of primaries. -/
inductive TestPrimary
  | expr (e : List (List TestPrimary))
  | func (f : TestFunc) (rhv : Rhv)

/-- What a condition is configured with; the defaults are those of `init_engine`. -/
structure CondConfig where
  name : String
  severity : SevCode
  anySrc : Bool
  eSrcs : List Regex := []
  anyCat : Bool := true
  eCats : List Regex := []
  matchAny : Bool := false
  e : Regex
  testExpr : List (List TestPrimary) := []
  /-- `trigger_count()` -/
  tc : ℤ := 1
  atLeast : Bool := true
  /-- `timespan()` -/
  ts : ℤ := 4372596
  perSource : Bool := false
  perTarget : Bool := false
  targetGroup : ℕ := 1
  persistent : Bool := true

end MfExtensions
