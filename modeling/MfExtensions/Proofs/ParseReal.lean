import MfExtensions.Parse

/-!
# Reading a number

A reader of the numbers the grammar spells (`RealLit.doubleParser`): it has what a rule's parser
asks of `qi::double_`.
-/

namespace MfExtensions

open Peg

namespace RealLit

def digitOf (c : Char) : Fin 10 := Fin.ofNat 10 (c.toNat - 48)

@[simp] theorem isDigit_digit : ∀ d : Fin 10, (digit d).isDigit = true := by decide

@[simp] theorem digitOf_digit : ∀ d : Fin 10, digitOf (digit d) = d := by decide

theorem digit_not_sign : ∀ d : Fin 10, digit d ≠ '+' ∧ digit d ≠ '-' := by decide

def readDigits (cs : List Char) : List (Fin 10) × List Char :=
  ((cs.takeWhile Char.isDigit).map digitOf, cs.dropWhile Char.isDigit)

def readSign : List Char → Option Bool × List Char
  | [] => (none, [])
  | c :: cs =>
    if c = '+' then (some false, cs) else if c = '-' then (some true, cs) else (none, c :: cs)

def readFrac : List Char → Option (List (Fin 10)) × List Char
  | [] => (none, [])
  | c :: cs => if c = '.' then (some (readDigits cs).1, (readDigits cs).2) else (none, c :: cs)

/-- An `e` that no digit follows is not part of the number. -/
def readExp : List Char → Option (Option Bool × Fin 10 × List (Fin 10)) × List Char
  | [] => (none, [])
  | c :: cs =>
    if c = 'e' ∨ c = 'E' then
      match readDigits (readSign cs).2 with
      | (d :: ds, rest) => (some ((readSign cs).1, d, ds), rest)
      | ([], _) => (none, c :: cs)
    else (none, c :: cs)

def read (cs : List Char) : Option (RealLit × List Char) :=
  match readDigits (readSign cs).2 with
  | ([], _) => none
  | (d :: ds, rest) =>
    some (⟨(readSign cs).1, (d, ds), (readFrac rest).1, (readExp (readFrac rest).2).1⟩,
      (readExp (readFrac rest).2).2)

/-! ## What is left -/

theorem length_readDigits_le (cs : List Char) : (readDigits cs).2.length ≤ cs.length :=
  List.length_dropWhile_le _ _

theorem length_readSign_le (cs : List Char) : (readSign cs).2.length ≤ cs.length := by
  cases cs with
  | nil => exact le_rfl
  | cons c cs =>
    rw [readSign]
    split_ifs
    · exact Nat.le_succ _
    · exact Nat.le_succ _
    · exact le_rfl

theorem length_readFrac_le (cs : List Char) : (readFrac cs).2.length ≤ cs.length := by
  cases cs with
  | nil => exact le_rfl
  | cons c cs =>
    rw [readFrac]
    split_ifs
    · exact (length_readDigits_le cs).trans (Nat.le_succ _)
    · exact le_rfl

theorem length_readExp_le (cs : List Char) : (readExp cs).2.length ≤ cs.length := by
  cases cs with
  | nil => exact le_rfl
  | cons c cs =>
    have hdigits := (length_readDigits_le (readSign cs).2).trans (length_readSign_le cs)
    rw [readExp]
    split_ifs
    · split
      · next heq =>
        rw [heq] at hdigits
        exact hdigits.trans (Nat.le_succ _)
      · exact le_rfl
    · exact le_rfl

theorem length_read_le {cs rest : List Char} {x : RealLit} (h : read cs = some (x, rest)) :
    rest.length ≤ cs.length := by
  have hdigits := (length_readDigits_le (readSign cs).2).trans (length_readSign_le cs)
  unfold read at h
  split at h
  · cases h
  · next d ds mid heq =>
    rw [heq] at hdigits
    cases h
    exact (length_readExp_le _).trans ((length_readFrac_le mid).trans hdigits)

/-! ## What is read of a spelled number -/

theorem readDigits_text (ds : List (Fin 10)) {more : List Char}
    (h : ∀ c ∈ more.head?, c.isDigit = false) :
    readDigits (ds.map digit ++ more) = (ds, more) := by
  have hall : ∀ c ∈ ds.map digit, c.isDigit = true := by
    intro c hc
    obtain ⟨d, -, rfl⟩ := List.mem_map.1 hc
    exact isDigit_digit d
  have hinv : digitOf ∘ digit = id := funext digitOf_digit
  rw [readDigits, List.takeWhile_append_of_pos hall, List.dropWhile_append_of_pos hall]
  cases more with
  | nil => simp [hinv]
  | cons c cs => simp [hinv, h c rfl]

theorem readSign_text (sign : Option Bool) (d : Fin 10) (cs : List Char) :
    readSign (signText sign ++ digit d :: cs) = (sign, digit d :: cs) := by
  obtain ⟨hplus, hminus⟩ := digit_not_sign d
  match sign with
  | none => exact (if_neg hplus).trans (if_neg hminus)
  | some false => rfl
  | some true => rfl

def fracText (frac : Option (List (Fin 10))) : List Char :=
  frac.elim [] fun ds => '.' :: ds.map digit

def expText (exp : Option (Option Bool × Fin 10 × List (Fin 10))) : List Char :=
  exp.elim [] fun e => 'e' :: (signText e.1 ++ digit e.2.1 :: e.2.2.map digit)

theorem text_eq (x : RealLit) : x.text =
    signText x.sign ++ ((x.int.1 :: x.int.2).map digit ++ (fracText x.frac ++ expText x.exp)) := by
  obtain ⟨sign, ⟨d, ds⟩, frac, exp⟩ := x
  cases frac <;> cases exp <;> simp [text, fracText, expText]

theorem head_expText (exp : Option (Option Bool × Fin 10 × List (Fin 10))) {more : List Char}
    (h : ∀ c ∈ more.head?, runsOn c = false) :
    ∀ c ∈ (expText exp ++ more).head?, c.isDigit = false ∧ c ≠ '.' := by
  cases exp with
  | none =>
    intro c hc
    have hrun := h c hc
    simp only [runsOn, Bool.or_eq_false_iff, beq_eq_false_iff_ne] at hrun
    exact hrun.1.1
  | some e =>
    intro c hc
    obtain rfl : 'e' = c := Option.some_inj.1 hc
    decide

theorem head_fracText (frac : Option (List (Fin 10))) {rest : List Char}
    (h : ∀ c ∈ rest.head?, c.isDigit = false ∧ c ≠ '.') :
    ∀ c ∈ (fracText frac ++ rest).head?, c.isDigit = false := by
  cases frac with
  | none => exact fun c hc => (h c hc).1
  | some ds =>
    intro c hc
    obtain rfl : '.' = c := Option.some_inj.1 hc
    decide

theorem readFrac_text (frac : Option (List (Fin 10))) {rest : List Char}
    (h : ∀ c ∈ rest.head?, c.isDigit = false ∧ c ≠ '.') :
    readFrac (fracText frac ++ rest) = (frac, rest) := by
  cases frac with
  | some ds =>
    show (some (readDigits (ds.map digit ++ rest)).1, (readDigits (ds.map digit ++ rest)).2) = _
    rw [readDigits_text ds fun c hc => (h c hc).1]
  | none =>
    cases rest with
    | nil => rfl
    | cons c cs => exact if_neg (h c rfl).2

theorem readExp_text (exp : Option (Option Bool × Fin 10 × List (Fin 10))) {more : List Char}
    (h : ∀ c ∈ more.head?, runsOn c = false) : readExp (expText exp ++ more) = (exp, more) := by
  cases exp with
  | some e =>
    obtain ⟨sign, d, ds⟩ := e
    have hsign := readSign_text sign d (ds.map digit ++ more)
    have hdigits : readDigits (digit d :: (ds.map digit ++ more)) = (d :: ds, more) :=
      readDigits_text (d :: ds) fun c hc => by
        have hrun := h c hc
        simp only [runsOn, Bool.or_eq_false_iff] at hrun
        exact hrun.1.1.1
    simp [expText, readExp, hsign, hdigits]
  | none =>
    cases more with
    | nil => rfl
    | cons c cs =>
      have hrun := h c rfl
      simp only [runsOn, Bool.or_eq_false_iff, beq_eq_false_iff_ne] at hrun
      exact if_neg (not_or.2 ⟨hrun.1.2, hrun.2⟩)

/-- A number is read to its end. -/
theorem read_text (x : RealLit) {more : List Char} (h : ∀ c ∈ more.head?, runsOn c = false) :
    read (x.text ++ more) = some (x, more) := by
  obtain ⟨sign, ⟨d, ds⟩, frac, exp⟩ := x
  have hhead := head_expText exp h
  have hsign := readSign_text sign d (ds.map digit ++ (fracText frac ++ (expText exp ++ more)))
  have hdigits :
      readDigits (digit d :: (ds.map digit ++ (fracText frac ++ (expText exp ++ more)))) =
        (d :: ds, fracText frac ++ (expText exp ++ more)) :=
    readDigits_text (d :: ds) (head_fracText frac hhead)
  have hfrac := readFrac_text frac hhead
  have hexp := readExp_text exp h
  rw [text_eq]
  simp only [List.map_cons, List.cons_append, List.append_assoc, read, hsign, hdigits, hfrac, hexp]

/-- What does not start as a number does is none. -/
theorem read_none {c : Char} {cs : List Char} (hdigit : c.isDigit = false)
    (hplus : c ≠ '+') (hminus : c ≠ '-') : read (c :: cs) = none := by
  simp [read, readSign, readDigits, hdigit, hplus, hminus]

/-! ## The reader -/

def negative (sign : Option Bool) : Bool := sign == some true

/-- The number the digits stand for. -/
def number (ds : List (Fin 10)) : ℕ := ds.foldl (fun n d => 10 * n + d.val) 0

/-- The power of ten after the digits of `frac`. -/
def exponent (x : RealLit) : ℤ :=
  x.exp.elim 0 (fun e => (if negative e.1 then -1 else 1) * (number (e.2.1 :: e.2.2) : ℤ)) -
    (x.frac.getD []).length

def value (x : RealLit) : Float :=
  let m := number (x.int.1 :: x.int.2 ++ x.frac.getD [])
  let v := Float.ofScientific m (x.exponent < 0) x.exponent.natAbs
  if negative x.sign then -v else v

def readValue (cs : List Char) : Option (Float × List Char) :=
  (read cs).map fun r => (r.1.value, r.2)

theorem length_readValue_le {cs rest : List Char} {v : Float}
    (h : readValue cs = some (v, rest)) : rest.length ≤ cs.length := by
  obtain ⟨⟨x, rest'⟩, hread, heq⟩ := Option.map_eq_some_iff.1 h
  cases heq
  exact length_read_le hread

def scanner : Peg.Scanner Float := ⟨readValue, length_readValue_le⟩

theorem scanner_text (x : RealLit) (more : List Char) (h : ∀ c ∈ more.head?, runsOn c = false) :
    scanner.run (x.text ++ more) = some (x.value, more) := by
  show (read (x.text ++ more)).map _ = _
  rw [read_text x h]
  rfl

theorem scanner_none (c : Char) (cs : List Char) (hdigit : c.isDigit = false)
    (hc : c ∉ "+-.iInN".toList) : scanner.run (c :: cs) = none := by
  show (read (c :: cs)).map _ = _
  rw [read_none hdigit (fun h => hc (h ▸ by decide)) (fun h => hc (h ▸ by decide))]
  rfl

def doubleParser : DoubleParser := ⟨scanner, value, scanner_text, scanner_none⟩

end RealLit

end MfExtensions
