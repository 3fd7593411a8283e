import MfExtensions.Rule

/-!
# The messages of a rule

`ma_richmsg::init`: the references `${cond.$s}`, `${cond.$t}`, `${cond.$m}` and `${cond.$gN}` of a
text are taken out of it, each with the position at which its value is to be inserted.
-/

namespace MfExtensions

variable {C : Type} [DecidableEq C]

namespace RichMsg

/-- `s.find(p, i)`: the first position from `i` on at which `p` stands. -/
def findFrom (p s : List Char) (i : ℕ) : Option ℕ :=
  (List.range (s.length + 1)).find? fun j => decide (i ≤ j) && p.isPrefixOf (s.drop j)

/-- `s.substr(i, n)`. -/
def substr (s : List Char) (i n : ℕ) : List Char := (s.drop i).take n

variable (k : RuleConfig C) (name : C → String)

/-- `get_cond_idx`, of the conditions of the rule. -/
def getCondIdx (s : String) : Except Err C :=
  match k.conditions.find? fun c => name c = s with
  | some c => .ok c
  | none => .error (.runtime ("get_cond_idx: name '" ++ s ++ "' not found"))

/-- What a reference refers to, `none` where `parse_msg_ref` returns false. -/
def parseMsgRef (s : List Char) : Except Err (Option (C × ArgT)) :=
  match findFrom ['.'] s 0 with
  | none => .ok none
  | some pos => do
    let c ← getCondIdx k name (String.ofList (substr s 0 pos))
    let pos := pos + 1
    if pos = s.length ∨ s[pos]? ≠ some '$' then return none
    let pos := pos + 1
    if pos = s.length then return none
    else if s[pos]? = some 's' then
      return if pos = s.length - 1 then some (c, .source) else none
    else if s[pos]? = some 't' then
      return if pos = s.length - 1 then some (c, .target) else none
    else if s[pos]? = some 'm' then
      return if pos = s.length - 1 then some (c, .message) else none
    else if s[pos]? = some 'g' then
      let d := s.getD (pos + 1) 'g'
      return if pos = s.length - 2 ∧ '1' ≤ d ∧ d ≤ '9'
        then some (c, .group (1 + (d.toNat - '1'.toNat))) else none
    else return none

/-- The loop of `parse_msg` from the position `old` on, with the last insert position, the stripped
text and the symbols so far; `none` where `parse_msg` returns false. -/
def parseMsgFrom (s : List Char) : ℕ → ℕ → ℕ → List Char → List (ℕ × C × ArgT) →
    Except Err (Option (List Char × List (ℕ × C × ArgT)))
  | 0, _, _, _, _ => .ok none
  | fuel + 1, old, ins, stripped, symbols =>
    match findFrom ['$', '\x7b'] s old with
    | none => .ok (some (if old < s.length then stripped ++ s.drop old else stripped, symbols))
    | some pos =>
      let ins := ins + (pos - old)
      let stripped := stripped ++ substr s old (pos - old)
      match findFrom ['\x7d'] s pos with
      | none => .ok none
      | some close => do
        match ← parseMsgRef k name (substr s (pos + 2) (close - pos - 2)) with
        | none => return none
        | some p => parseMsgFrom s fuel (close + 1) ins stripped (symbols ++ [(ins, p)])

/-- `ma_richmsg::init`. Each step of the loop goes on behind a character. -/
def init (s : String) : Except Err (RichMsg C) := do
  match ← parseMsgFrom k name s.toList (s.toList.length + 1) 0 0 [] [] with
  | none => throw (.runtime "Error parsing rule messages!")
  | some (stripped, symbols) => return ⟨String.ofList stripped, symbols⟩

end RichMsg

end MfExtensions
