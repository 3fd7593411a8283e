import MfExtensions.Proofs.ParseReal
import MfExtensions.Proofs.ParseRule
import MfExtensions.Proofs.Print
import MfExtensions.TestTree

/-!
# Reading a test

A printed test is parsed to what it says of a condition, or is refused with the exception of the
first of its terms that is not accepted (`test_parsed`). A number without a point and an exponent
that is an `int` is read as one, and as a `double` otherwise (`yields_value`).
-/

namespace MfExtensions

open Peg Peg.Parser Exec

/-! ## Integers -/

theorem digitsRun_append (negative : Bool) {ds more : List Char} (hne : ds ≠ [])
    (hds : ∀ c ∈ ds, c.isDigit = true) (hmore : ∀ c ∈ more.head?, c.isDigit = false) :
    digitsRun negative (ds ++ more) =
      if IsInt (signed negative (digitsValue ds)) then some (signed negative (digitsValue ds), more)
      else none := by
  have htake : (ds ++ more).takeWhile Char.isDigit = ds := by
    rw [List.takeWhile_append_of_pos hds]
    cases more with
    | nil => simp
    | cons c cs => simp [hmore c rfl]
  have hdrop : (ds ++ more).dropWhile Char.isDigit = more := by
    rw [List.dropWhile_append_of_pos hds]
    cases more with
    | nil => rfl
    | cons c cs => simp [hmore c rfl]
  unfold digitsRun
  simp only [htake, hdrop, ne_eq, hne, not_false_eq_true, true_and]

theorem intRun_unsigned {c : Char} {cs : List Char} (hminus : c ≠ '-') (hplus : c ≠ '+') :
    intRun (c :: cs) = digitsRun false (c :: cs) := by
  unfold intRun
  split
  · next h => exact absurd (List.cons.inj h).1 hminus
  · next h => exact absurd (List.cons.inj h).1 hplus
  · rfl

theorem RealLit.intDigits_ok (x : RealLit) : ∀ c ∈ x.intDigits, c.isDigit = true := by
  intro c hc
  obtain ⟨d, -, rfl⟩ := List.mem_map.1 hc
  exact isDigit_digit d

/-- What is read of a number in front of its point. -/
theorem intRun_text (x : RealLit) {more : List Char} (h : ∀ c ∈ more.head?, c.isDigit = false) :
    intRun (RealLit.signText x.sign ++ (x.intDigits ++ more)) =
      if IsInt x.intValue then some (x.intValue, more) else none := by
  have hne : x.intDigits ≠ [] := by simp [RealLit.intDigits]
  have hrun := fun negative => digitsRun_append negative hne x.intDigits_ok h
  obtain ⟨sign, ⟨d, ds⟩, frac, exp⟩ := x
  obtain ⟨hplus, hminus⟩ := RealLit.digit_not_sign d
  match sign with
  | none =>
    show intRun (RealLit.digit d :: _) = _
    rw [intRun_unsigned hminus hplus]
    exact hrun false
  | some false => exact hrun false
  | some true => exact hrun true

theorem intRun_none {c : Char} {cs : List Char} (hdigit : c.isDigit = false) (hminus : c ≠ '-')
    (hplus : c ≠ '+') : intRun (c :: cs) = none := by
  rw [intRun_unsigned hminus hplus]
  simp [digitsRun, hdigit]

namespace CondTestExprParser

open BooleanExprParser (key compareOp reads_key reads_compareOp fails_compareOp)

variable (D : DoubleParser)

theorem run_charPointExp {c : Char} (hc : (c == '.' || c == 'e' || c == 'E') = true)
    (hspace : space c = false) (cs : List Char) (s : RuleParse) :
    charPointExp.run (c :: cs) s = .ok c cs s := by
  have hskip : skip (c :: cs) = c :: cs := by simp [skip, hspace]
  have hscan : (Scanner.sat fun c => c == '.' || c == 'e' || c == 'E').run (c :: cs) =
      some (c, cs) := if_pos hc
  show tokenRun _ (c :: cs) s = _
  rw [tokenRun, hskip, hscan]

theorem fails_charPointExp {os : List (Option Char)}
    (h : some '.' ∉ os ∧ some 'e' ∉ os ∧ some 'E' ∉ os) : Fails charPointExp (Followed os) := by
  refine fails_token fun cs hF => ?_
  show Scanner.satRun _ (skip cs) = none
  cases hcs : skip cs with
  | nil => rfl
  | cons c cs' =>
    have hmem : some c ∈ os := by rwa [Followed, next, hcs] at hF
    refine if_neg fun hc => ?_
    simp only [Bool.or_eq_true, beq_iff_eq] at hc
    rcases hc with (rfl | rfl) | rfl
    · exact h.1 hmem
    · exact h.2.1 hmem
    · exact h.2.2 hmem

/-- What can stand after a value. -/
abbrev AfterValue : List Char → Prop := Followed [none, some ',', some ')', some '&', some '|']

/-- The integer of a value, where it is read as one. -/
def intValue : RuleParser Any := do
  let n ← int
  notAhead charPointExp
  return .int n

theorem run_int_some {cs rest : List Char} {n : ℤ} (h : intRun (skip cs) = some (n, rest))
    (s : RuleParse) : int.run cs s = .ok n rest s := by
  have hscan : (⟨intRun, intRun_le⟩ : Scanner ℤ).run (skip cs) = some (n, rest) := h
  show tokenRun _ cs s = _
  rw [tokenRun, hscan]

theorem fails_int {F : List Char → Prop} (h : ∀ cs, F cs → intRun (skip cs) = none) :
    Fails int F := fails_token h

theorem head_fraction {x : RealLit} (h : ¬(x.frac.isNone ∧ x.exp.isNone)) (more : List Char) :
    ∃ c cs, RealLit.fracText x.frac ++ (RealLit.expText x.exp ++ more) = c :: cs ∧
      (c == '.' || c == 'e' || c == 'E') = true := by
  obtain ⟨sign, int, frac, exp⟩ := x
  cases frac with
  | some ds => exact ⟨'.', _, rfl, rfl⟩
  | none =>
    cases exp with
    | some e => exact ⟨'e', _, rfl, rfl⟩
    | none => exact absurd ⟨rfl, rfl⟩ h

/-- A number that is no `int`, or goes on behind one, is left to the other alternatives. -/
theorem fails_intValue_real {x : RealLit} (h : x.asInt = none) :
    Fails intValue (Value.real x).token.At := by
  intro cs s ⟨more, hskip, hends⟩
  have hdigit : ∀ c ∈ (RealLit.fracText x.frac ++ (RealLit.expText x.exp ++ more)).head?,
      c.isDigit = false := RealLit.head_fracText x.frac (RealLit.head_expText x.exp hends)
  have htext : skip cs = RealLit.signText x.sign ++
      (x.intDigits ++ (RealLit.fracText x.frac ++ (RealLit.expText x.exp ++ more))) := by
    rw [hskip]
    show x.text ++ more = _
    rw [RealLit.text_eq]
    simp only [RealLit.intDigits, List.append_assoc]
  have hrun := intRun_text x hdigit
  rw [← htext] at hrun
  by_cases hint : IsInt x.intValue
  · rw [if_pos hint] at hrun
    have hgoes : ¬(x.frac.isNone ∧ x.exp.isNone) := by
      intro hno
      rw [RealLit.asInt, if_pos ⟨hno.1, hno.2, hint⟩] at h
      cases h
    obtain ⟨c, cs', hcs, hc⟩ := head_fraction hgoes more
    have hspace : space c = false := by
      simp only [Bool.or_eq_true, beq_iff_eq] at hc
      rcases hc with (rfl | rfl) | rfl <;> decide
    have hahead : Fails (notAhead charPointExp) (· = c :: cs') :=
      fails_notAhead fun cs s hcs => ⟨c, cs', hcs ▸ run_charPointExp hc hspace cs' s⟩
    rw [hcs] at hrun
    unfold intValue
    rw [run_bind, run_int_some hrun]
    exact (hahead.bind _) (c :: cs') s rfl
  · rw [if_neg hint] at hrun
    exact ((fails_int (F := (· = cs)) fun _ h => h ▸ hrun).bind _) cs s rfl

theorem fails_intValue {os : List (Option Char)}
    (h : ∀ c, some c ∈ os → c.isDigit = false ∧ c ≠ '-' ∧ c ≠ '+') :
    Fails intValue (Followed os) := by
  refine (fails_int fun cs hF => ?_).bind _
  cases hcs : skip cs with
  | nil => rfl
  | cons c cs' =>
    have hmem : some c ∈ os := by rwa [Followed, next, hcs] at hF
    obtain ⟨hdigit, hminus, hplus⟩ := h c hmem
    exact intRun_none hdigit hminus hplus

theorem yields_intValue {x : RealLit} {n : ℤ} (h : x.asInt = some n) :
    Yields intValue AfterValue [(Value.real x).token] (.ok (.int n)) := by
  obtain ⟨⟨hfrac, hexp, hint⟩, rfl⟩ :
      (x.frac.isNone ∧ x.exp.isNone ∧ IsInt x.intValue) ∧ x.intValue = n := by
    unfold RealLit.asInt at h
    split_ifs at h with hif
    exact ⟨hif, Option.some.inj h⟩
  have hread : Yields int AfterValue [(Value.real x).token] (.ok x.intValue) := by
    refine Reads.yields fun s₀ => reads_token fun more hmore => ?_
    have hdigit : ∀ c ∈ more.head?, c.isDigit = false := by
      intro c hc
      have hrun := hmore c hc
      simp only [Value.token, RealLit.runsOn, Bool.or_eq_false_iff] at hrun
      exact hrun.1.1.1
    show intRun (x.text ++ more) = _
    rw [RealLit.text_eq, Option.isNone_iff_eq_none.1 hfrac, Option.isNone_iff_eq_none.1 hexp]
    simp only [RealLit.fracText, RealLit.expText, Option.elim, List.append_nil, List.append_assoc]
    exact (intRun_text x hdigit).trans (if_pos hint)
  refine hread.bind_ok ?_ fun cs rest hsp hF => ?_
  · have hend : Fails charPointExp AfterValue := fails_charPointExp (by decide)
    refine (yields_notAhead hend).bind_ok (yields_pure _) fun cs rest hsp hF => ?_
    cases hsp
    exact hF
  · cases hsp
    exact hF

/-- A value is read as an `int` where it is one, and else as `boolean_expr_parser` reads it. -/
theorem yields_value (v : Value) : Yields (value D) AfterValue [v.token] (.ok (v.testAny D)) := by
  have hother : ∀ s₀ : RuleParse, Reads (· = s₀)
      ((do return Any.double (← token D.scan)) <|> (do return Any.bool (← bool)) <|>
        (do return Any.string (← str)) : RuleParser Any) AfterValue [v.token]
      fun a s => a = v.any D ∧ s = s₀ :=
    fun s₀ => BooleanExprParser.reads_arg D v
  cases v with
  | real x =>
    cases hx : x.asInt with
    | some n =>
      rw [Value.testAny, hx]
      exact (yields_intValue hx).alt_left
    | none =>
      rw [Value.testAny, hx]
      exact (Reads.yields hother).alt_right (fails_intValue_real hx) fun _ _ hsp _ => hsp.token_at
  | bool b =>
    have hint : Fails intValue (Followed [some 't', some 'f']) := fails_intValue (by simp)
    refine (Reads.yields hother).alt_right hint fun cs rest hsp _ => ?_
    cases b <;> exact hsp.followed rfl (by decide)
  | str y =>
    have hint : Fails intValue (Followed [some '\'']) := fails_intValue (by simp)
    exact (Reads.yields hother).alt_right hint fun cs rest hsp _ => hsp.followed rfl (by decide)

/-! ## Terms -/

theorem yields_values : ∀ (v : Value) (vs : List Value), Yields (values D) (Followed [some ')'])
    (TestTerm.argTokens (v :: vs)) (.ok ((v :: vs).map (Value.testAny D)))
  | v, [] => .list_one (consumes_lit (by decide)) (yields_value D v) (fun _ h => h.mono (by simp))
    ((fails_lit rfl (by decide)).bind _)
  | v, w :: vs => .list_cons (consumes_lit (by decide)) (yields_value D v) (yields_lit rfl)
    (yields_values w vs) fun _ _ hsp => hsp.followed rfl (by decide)

theorem fails_value : Fails (value D) (Followed [some ')']) := by
  have hdouble : Fails (token D.scan : RuleParser Float) (Followed [some ')']) := by
    refine fails_token fun cs hF => ?_
    cases hcs : skip cs with
    | nil => simp [Followed, next, hcs] at hF
    | cons c cs' =>
      obtain rfl : c = ')' := by simpa [Followed, next, hcs] using hF
      exact D.scan_none _ _ rfl (by decide)
  exact .alt (fails_intValue (by simp)) (.alt (hdouble.bind _)
    (.alt ((fails_bool (by decide) (by decide)).bind _) ((fails_str (by decide)).bind _)))

theorem yields_optValues (vs : List Value) : ∃ o : Option (List Any),
    o.getD [] = vs.map (Value.testAny D) ∧
      Yields (opt (values D)) (Followed [some ')']) (TestTerm.argTokens vs) (.ok o) := by
  cases vs with
  | nil => exact ⟨none, rfl, yields_opt_none ((fails_value D).bind _)⟩
  | cons v vs => exact ⟨some _, rfl, (yields_values D v vs).opt_some⟩

/-- What can stand after a term. -/
abbrev AfterTerm : List Char → Prop := Followed [none, some '&', some '|', some ')']

theorem yields_optComparison (cmp : Option (CompareOp × Value)) : ∃ o : Option Rhv,
    o.getD .none = cmp.elim .none (fun c => insertCompareOp c.1 (c.2.testAny D)) ∧
      Yields (opt (do
        let c ← compareOp
        return insertCompareOp c (← value D))) AfterTerm
        (cmp.elim [] fun c => [c.1.token, c.2.token]) (.ok o) := by
  cases cmp with
  | none =>
    have hfails : Fails compareOp AfterTerm := fails_compareOp (by simp)
    exact ⟨none, rfl, yields_opt_none (hfails.bind _)⟩
  | some c =>
    have hop : Yields compareOp (fun _ => True) [c.1.token] (.ok c.1) :=
      Reads.yields fun _ => reads_compareOp c.1
    have hvalue : Yields (value D) AfterTerm [c.2.token] (.ok (c.2.testAny D)) :=
      fun cs rest s hsp hF => yields_value D c.2 cs rest s hsp (hF.mono (by simp))
    have hrhv : Yields (do return insertCompareOp c.1 (← value D)) AfterTerm [c.2.token]
        (.ok (insertCompareOp c.1 (c.2.testAny D))) := hvalue.map _
    have hboth : Yields (do
        let c ← compareOp
        return insertCompareOp c (← value D)) AfterTerm ([c.1.token] ++ [c.2.token])
        (.ok (insertCompareOp c.1 (c.2.testAny D))) := hop.bind_ok hrhv fun _ _ _ _ => trivial
    exact ⟨some _, rfl, hboth.opt_some⟩

theorem yields_function {f : TestTerm} (hname : Avoids ["AND", "OR"] f.function.str) :
    Yields (function D) AfterTerm f.tokens (do return .func (← f.make D) (f.rhv D)) := by
  obtain ⟨args, hargs, hread⟩ := yields_optValues D f.args
  obtain ⟨rhv, hrhv, hcmp⟩ := yields_optComparison D f.cmp
  have hkey : Yields key (fun _ => True) [f.function.token] (.ok f.function.str) :=
    Reads.yields fun _ => reads_key hname
  show Yields _ _ ([f.function.token] ++ .word "(" :: (TestTerm.argTokens f.args ++
    .word ")" :: ([] ++ f.cmp.elim [] _))) _
  refine hkey.bind_ok (.after_lit rfl (hread.bind_ok (.after_lit rfl ?_) ?_)) fun _ _ _ _ => trivial
  · rw [hargs]
    refine (yields_effect (f.make D)).bind (fun t _ => ?_) (G := fun _ => True)
      fun _ _ _ _ => trivial
    have hret := hcmp.map fun r => TestPrimary.func t (r.getD .none)
    rwa [show f.rhv D = rhv.getD .none from hrhv.symm]
  · exact fun cs rest hsp _ => hsp.followed rfl (by decide)

theorem testExpr_eq : testExpr D = list (testAndexpr D (testExpr D)) (lit "||") :=
  rule_eq fun _ _ _ h => .list (.list (.alt (.bind_consumes (consumes_lit (by decide)) fun _ =>
    .bind h fun _ => .refl _ _) (.refl _ _)) _) _

/-- What can stand after an and-expression. -/
abbrev AfterAndexpr : List Char → Prop := Followed [none, some '|', some ')']

/-- What can stand after a test. -/
abbrev AfterExpr : List Char → Prop := Followed [none, some ')']

end CondTestExprParser

section Trees

open CondTestExprParser

variable (D : DoubleParser)

mutual

theorem TestTree.yields : ∀ p : TestTree,
    (∀ f ∈ p.terms, Avoids ["AND", "OR"] f.function.str) →
    Yields (testPrimary D (testExpr D)) AfterTerm p.tokens (p.compile D)
  | .expr e, h => ((TestOrExpr.yields e h).parens (by decide) TestPrimary.expr).alt_left
  | .term f, h => by
    have hread := yields_function D (h f (List.mem_singleton_self f))
    exact hread.alt_right (fails_paren f.function) fun _ _ hsp _ => hsp.token_at

theorem TestAndExpr.yields : ∀ a : TestAndExpr,
    (∀ f ∈ a.terms, Avoids ["AND", "OR"] f.function.str) →
    Yields (testAndexpr D (testExpr D)) AfterAndexpr a.tokens (a.compile D)
  | .one p, h => .list_one (consumes_lit (by decide)) (TestTree.yields p h)
    (fun _ h => h.mono (by simp)) ((fails_lit rfl (by decide)).bind _)
  | .and p a, h => by
    obtain ⟨hp, ha⟩ := List.forall_mem_append.1 h
    exact .list_cons (consumes_lit (by decide)) (TestTree.yields p hp) (yields_lit rfl)
      (TestAndExpr.yields a ha) fun _ _ hsp => hsp.followed rfl (by decide)

theorem TestOrExpr.yields : ∀ e : TestOrExpr,
    (∀ f ∈ e.terms, Avoids ["AND", "OR"] f.function.str) →
    Yields (testExpr D) AfterExpr e.tokens (e.compile D)
  | .one a, h => by
    rw [testExpr_eq]
    exact .list_one (consumes_lit (by decide)) (TestAndExpr.yields a h)
      (fun _ h => h.mono (by simp)) ((fails_lit rfl (by decide)).bind _)
  | .or a e, h => by
    obtain ⟨ha, he⟩ := List.forall_mem_append.1 h
    have hmore := TestOrExpr.yields e he
    rw [testExpr_eq] at hmore ⊢
    exact .list_cons (consumes_lit (by decide)) (TestAndExpr.yields a ha) (yields_lit rfl) hmore
      fun _ _ hsp => hsp.followed rfl (by decide)

end

end Trees

/-- A spelled tree is parsed to what it compiles to. -/
theorem parseConditionTest_spelled {D : DoubleParser} {t : TestOrExpr} {text : String}
    (hnames : ∀ f ∈ t.terms, Avoids ["AND", "OR"] f.function.str) (htext : t.Spelled text) :
    parseConditionTest D text = do return some (← t.compile D) := by
  obtain ⟨rest, hsp, hrest⟩ := htext
  have hend : CondTestExprParser.AfterExpr rest := by simp [Followed, next, hrest]
  have hrun := TestOrExpr.yields D t hnames text.toList rest {} hsp hend
  have hempty : text.isEmpty = false := by
    rw [← Bool.not_eq_true]
    intro h
    rw [String.isEmpty_iff.1 h, String.toList_empty] at hrun
    have hfail : (CondTestExprParser.testExpr D).run [] {} = .fail {} := rfl
    rw [hfail] at hrun
    cases hcompile : t.compile D <;> rw [hcompile] at hrun <;> cases hrun
  unfold parseConditionTest
  rw [hempty, hrun]
  cases t.compile D with
  | ok e =>
    simp [Outcome.of, hrest]
  | error e => rfl

/-! ## What a test says -/

theorem TestTerm.make_accepted {D : DoubleParser} {f : TestTerm} (h : f.Accepted) :
    f.make D = .ok (.grpToNumber (f.group.getD 0)) := by
  obtain ⟨hname, hgroup⟩ := h
  obtain ⟨n, hn⟩ := Option.isSome_iff_exists.1 hgroup
  obtain ⟨function, args, cmp⟩ := f
  rw [hn]
  unfold group at hn
  split at hn
  · next x vs hargs =>
    obtain rfl : args = .real x :: vs := hargs
    have hint : (Value.real x).testAny D = .int n := by rw [Value.testAny, hn]; rfl
    unfold make insertFunc TestClass.createInstance
    rw [if_pos hname, List.map_cons, hint]
    rfl
  · cases hn

/-- What a function that is not there, or does not take its arguments, throws. -/
theorem TestTerm.make_rejected (D : DoubleParser) {f : TestTerm} (h : ¬f.Accepted) :
    ∃ e, f.make D = .error e := by
  obtain ⟨function, args, cmp⟩ := f
  unfold make insertFunc TestClass.createInstance
  by_cases hname : function.str = "grp_to_number"
  · rw [if_pos hname]
    match args with
    | [] => exact ⟨_, rfl⟩
    | .bool b :: vs => exact ⟨_, rfl⟩
    | .str y :: vs => exact ⟨_, rfl⟩
    | .real x :: vs =>
      cases hx : x.asInt with
      | none =>
        have hdouble : (Value.real x).testAny D = .double (D.value x) := by
          rw [Value.testAny, hx]
          rfl
        rw [List.map_cons, hdouble]
        exact ⟨_, rfl⟩
      | some n => exact absurd ⟨hname, Option.isSome_iff_exists.2 ⟨n, hx⟩⟩ h
  · rw [if_neg hname]
    exact ⟨_, rfl⟩

/-- All the terms are accepted, and the outcome has `P`; or the first that is not throws. -/
def Compiled {α : Type} (D : DoubleParser) (terms : List TestTerm) (P : α → Prop)
    (x : Except Err α) : Prop :=
  (∃ a, x = .ok a ∧ P a ∧ ∀ f ∈ terms, f.Accepted) ∨
    ∃ pre f post e, terms = pre ++ f :: post ∧ (∀ g ∈ pre, g.Accepted) ∧ ¬f.Accepted ∧
      f.make D = .error e ∧ x = .error e

namespace Compiled

variable {α β : Type} {D : DoubleParser} {terms terms' : List TestTerm} {P : α → Prop}
  {Q : β → Prop} {x : Except Err α}

theorem map {f : α → β} (h : Compiled D terms P x) (hf : ∀ a, P a → Q (f a)) :
    Compiled D terms Q (do return f (← x)) := by
  rcases h with ⟨a, rfl, ha, hterms⟩ | ⟨pre, g, post, e, hterms, hpre, hg, hmake, rfl⟩
  · exact .inl ⟨f a, rfl, hf a ha, hterms⟩
  · exact .inr ⟨pre, g, post, e, hterms, hpre, hg, hmake, rfl⟩

theorem append {γ : Type} {R : γ → Prop} {y : Except Err β} {f : α → β → γ}
    (hx : Compiled D terms P x) (hy : Compiled D terms' Q y)
    (hf : ∀ a b, P a → Q b → R (f a b)) :
    Compiled D (terms ++ terms') R (do return f (← x) (← y)) := by
  rcases hx with ⟨a, rfl, ha, hterms⟩ | ⟨pre, g, post, e, rfl, hpre, hg, hmake, rfl⟩
  · rcases hy with ⟨b, rfl, hb, hterms'⟩ | ⟨pre, g, post, e, rfl, hpre, hg, hmake, rfl⟩
    · exact .inl ⟨f a b, rfl, hf a b ha hb, List.forall_mem_append.2 ⟨hterms, hterms'⟩⟩
    · refine .inr ⟨terms ++ pre, g, post, e, (List.append_assoc _ _ _).symm, ?_, hg, hmake, rfl⟩
      exact List.forall_mem_append.2 ⟨hterms, hpre⟩
  · exact .inr ⟨pre, g, post ++ terms', e, by simp, hpre, hg, hmake, rfl⟩

end Compiled

theorem ite_bind_pure (x : Except Err Bool) :
    (do if ← x then return true else return false) = x := by
  rcases x with e | b
  · rfl
  · cases b <;> rfl

section Meaning

variable (D : DoubleParser) (L : LexicalCast)

/-- The alternatives of a test say what the tree says. -/
def TestOrExpr.Means (e : TestOrExpr) (es : List (List TestPrimary)) : Prop :=
  es ≠ [] ∧ ∀ c, TestPrimary.evaluateOr L c es = e.test D L c

mutual

theorem TestTree.compiled : ∀ p : TestTree,
    Compiled D p.terms (fun x => ∀ c, x.evaluate L c = p.test D L c) (p.compile D)
  | .expr e => (TestOrExpr.compiled e).map fun es h c => by
    rw [TestPrimary.evaluate, if_neg (by simpa using h.1)]
    exact h.2 c
  | .term f => by
    rw [TestTree.terms, TestTree.compile]
    by_cases hf : f.Accepted
    · rw [TestTerm.make_accepted hf]
      exact .inl ⟨_, rfl, fun c => rfl, List.forall_mem_singleton.2 hf⟩
    · obtain ⟨e, he⟩ := TestTerm.make_rejected D hf
      exact .inr ⟨[], f, [], e, rfl, List.forall_mem_nil _, hf, he, by rw [he]; rfl⟩

theorem TestAndExpr.compiled : ∀ a : TestAndExpr,
    Compiled D a.terms (fun xs => ∀ c, TestPrimary.evaluateAnd L c xs = a.test D L c) (a.compile D)
  | .one p => (TestTree.compiled p).map fun x h c => by
    rw [TestPrimary.evaluateAnd, TestPrimary.evaluateAnd, h c]
    exact ite_bind_pure _
  | .and p a => (TestTree.compiled p).append (TestAndExpr.compiled a) fun x xs hx hxs c => by
    rw [TestPrimary.evaluateAnd, hx c, hxs c]
    rfl

theorem TestOrExpr.compiled : ∀ e : TestOrExpr,
    Compiled D e.terms (e.Means D L) (e.compile D)
  | .one a => (TestAndExpr.compiled a).map fun xs h => ⟨List.cons_ne_nil _ _, fun c => by
    rw [TestPrimary.evaluateOr, TestPrimary.evaluateOr, h c]
    exact ite_bind_pure _⟩
  | .or a e => (TestAndExpr.compiled a).append (TestOrExpr.compiled e) fun xs xss hxs hxss =>
    ⟨List.cons_ne_nil _ _, fun c => by
      rw [TestPrimary.evaluateOr, hxs c, hxss.2 c]
      rfl⟩

end

end Meaning

/-- A printed test whose terms are all `grp_to_number` of an integer is parsed to a test that says
of every condition what the tree says; and any other is refused, with the exception of the first
term that is not. -/
theorem test_parsed {D : DoubleParser} {t : TestOrExpr} {text : String}
    (hnames : ∀ f ∈ t.terms, Avoids ["AND", "OR"] f.function.str) (htext : t.Spelled text)
    (L : LexicalCast) :
    (∃ es, parseConditionTest D text = .ok (some es) ∧ (∀ f ∈ t.terms, f.Accepted) ∧
      ∀ c, TestPrimary.evaluate L c (.expr es) = t.test D L c) ∨
    ∃ pre f post e, t.terms = pre ++ f :: post ∧ (∀ g ∈ pre, g.Accepted) ∧ ¬f.Accepted ∧
      f.make D = .error e ∧ parseConditionTest D text = .error e := by
  rw [parseConditionTest_spelled hnames htext]
  rcases TestOrExpr.compiled D L t with ⟨es, hes, hmeans, hterms⟩ |
    ⟨pre, f, post, e, hterms, hpre, hf, hmake, hthrow⟩
  · refine .inl ⟨es, by rw [hes]; rfl, hterms, fun c => ?_⟩
    rw [TestPrimary.evaluate, if_neg (by simpa using hmeans.1)]
    exact hmeans.2 c
  · exact .inr ⟨pre, f, post, e, hterms, hpre, hf, hmake, by rw [hthrow]; rfl⟩

/-! ## Printing a test -/

theorem TestTerm.spaced_argTokens : ∀ vs : List Value, ∀ t ∈ argTokens vs, t.Spaced
  | [] => List.forall_mem_nil _
  | [v] => List.forall_mem_singleton.2 v.spaced_token
  | v :: w :: vs =>
    List.forall_mem_cons.2 ⟨v.spaced_token, List.forall_mem_cons.2
      ⟨by decide, spaced_argTokens (w :: vs)⟩⟩

theorem TestTerm.spaced_tokens (f : TestTerm) : ∀ t ∈ f.tokens, t.Spaced := by
  obtain ⟨function, args, cmp⟩ := f
  simp only [tokens, List.forall_mem_cons, List.forall_mem_append]
  refine ⟨function.spaced_token, by decide, spaced_argTokens args, by decide, ?_⟩
  cases cmp with
  | none => exact List.forall_mem_nil _
  | some c =>
    simp only [Option.elim, List.forall_mem_cons]
    exact ⟨c.1.spaced_token, c.2.spaced_token, List.forall_mem_nil _⟩

mutual

theorem TestTree.spaced_tokens : ∀ p : TestTree, ∀ t ∈ p.tokens, t.Spaced
  | .expr e => by
    simp only [TestTree.tokens, List.forall_mem_cons, List.forall_mem_append]
    exact ⟨by decide, e.spaced_tokens, by decide, List.forall_mem_nil _⟩
  | .term f => by
    rw [TestTree.tokens]
    exact f.spaced_tokens

theorem TestAndExpr.spaced_tokens : ∀ a : TestAndExpr, ∀ t ∈ a.tokens, t.Spaced
  | .one p => by
    rw [TestAndExpr.tokens]
    exact p.spaced_tokens
  | .and p a => by
    simp only [TestAndExpr.tokens, List.forall_mem_cons, List.forall_mem_append]
    exact ⟨p.spaced_tokens, by decide, a.spaced_tokens⟩

theorem TestOrExpr.spaced_tokens : ∀ e : TestOrExpr, ∀ t ∈ e.tokens, t.Spaced
  | .one a => by
    rw [TestOrExpr.tokens]
    exact a.spaced_tokens
  | .or a e => by
    simp only [TestOrExpr.tokens, List.forall_mem_cons, List.forall_mem_append]
    exact ⟨a.spaced_tokens, by decide, e.spaced_tokens⟩

end

theorem TestOrExpr.spelled_print (t : TestOrExpr) : t.Spelled t.print := by
  refine ⟨[], ?_, rfl⟩
  rw [print, String.toList_ofList]
  exact spells_spaced t.spaced_tokens

namespace Sample

def grpToNumber : Name :=
  ⟨'g', ['r', 'p', '_', 't', 'o', '_', 'n', 'u', 'm', 'b', 'e', 'r'], rfl, rfl⟩

def one : RealLit := ⟨none, (RealLit.digitOf '1', []), none, none⟩

def half : RealLit := ⟨none, (RealLit.digitOf '0', []), some [RealLit.digitOf '5'], none⟩

/-- `grp_to_number(1) >= 3 && (grp_to_number(3) < 0.5)` -/
def groups : TestOrExpr :=
  .one (.and (.term ⟨grpToNumber, [.real one], some (.ge, .real three)⟩)
    (.one (.expr (.one (.one
      (.term ⟨grpToNumber, [.real three], some (.l, .real half)⟩))))))

/-- The numbers that `RealLit.doubleParser` reads to their end, and those without a sign. -/
def decimalCast : LexicalCast where
  toDouble s :=
    match RealLit.readValue s.toList with
    | some (v, []) => some v
    | _ => none
  toUInt64 s := s.toNat?.map UInt64.ofNat

end Sample

theorem test_parsed_groups : ∃ es,
    parseConditionTest RealLit.doubleParser Sample.groups.print = .ok (some es) ∧
      ∀ c, TestPrimary.evaluate Sample.decimalCast c (.expr es) =
        Sample.groups.test RealLit.doubleParser Sample.decimalCast c := by
  have haccepted : ∀ f ∈ Sample.groups.terms, f.Accepted := by decide
  rcases test_parsed (D := RealLit.doubleParser) (by decide) Sample.groups.spelled_print
    Sample.decimalCast with ⟨es, hparse, -, hmeans⟩ | ⟨pre, f, post, e, hterms, -, hf, -⟩
  · exact ⟨es, hparse, hmeans⟩
  · exact absurd (haccepted f (by rw [hterms]; simp)) hf

end MfExtensions
