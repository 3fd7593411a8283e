import MfExtensions.Proofs.ParseTokens
import MfExtensions.Proofs.RuleConfig

/-!
# Reading a boolean expression

A printed boolean expression is read back as its tree (`BooleanOrExpr.reads`), and the conditions of
the rule are then those of the tree. The other way round, a name the parser puts in an expression
begins with no keyword (`ensures_booleanExpr`).
-/

namespace MfExtensions

open Peg Peg.Parser Exec

/-! ## Actions -/

/-- The conditions a rule has while it is parsed, and its expressions. -/
structure Filled (N : String → Prop) (be : BooleanExpr CondArg) (de : DomainExpr String)
    (r : RuleParse) : Prop where
  has : ∀ name, r.has name = true ↔ N name
  boolean : r.booleanExpr = be
  domain : r.domainExpr = de

namespace RuleParse

variable {condMap : List String} {N : String → Prop} {be : BooleanExpr CondArg}
  {de : DomainExpr String} {r : RuleParse}

theorem has_iff {name : String} : r.has name = true ↔ name ∈ r.conditions.map Prod.fst := by
  simp [has]

theorem insertConditionPtr_ok {name : String} (h : name ∈ condMap) (primitive : Bool)
    (hr : Filled N be de r) : ∃ r', insertConditionPtr condMap name primitive r = .ok () r' ∧
      Filled (fun m => N m ∨ m = name) be de r' := by
  have hif : (r.has name || condMap.elem name) = true := by simp [h]
  refine ⟨{ r with
    conditions := MfExtensions.insertConditionPtr name primitive r.conditions
    notified := if r.has name then r.notified else r.notified ++ [(name, ArgT.none)] },
    ?_, fun m => ?_, hr.boolean, hr.domain⟩
  · unfold insertConditionPtr
    rw [bind_apply, get_apply]
    dsimp only
    rw [if_pos hif, modify_apply]
  · rw [has_iff, mem_insertConditionPtr, ← has_iff, hr.has]

theorem insertPrimitiveCond_ok {name : String} (h : name ∈ condMap) (hr : Filled N be de r) :
    ∃ b r', insertPrimitiveCond condMap name r = .ok b r' ∧
      b = .cond (name, .none) ∧ Filled (fun m => N m ∨ m = name) be de r' := by
  obtain ⟨r', hrun, hr'⟩ := insertConditionPtr_ok h true hr
  refine ⟨.cond (name, .none), r', ?_, rfl, hr'⟩
  unfold insertPrimitiveCond
  rw [bind_apply, hrun]
  rfl

end RuleParse

/-- Which object is made of a function makes no difference to whether it takes its arguments. -/
theorem FuncTerm.Makes.other {D : DoubleParser} {f : FuncTerm} {obj : ℕ} {e : ExtFunc}
    (h : f.Makes D obj e) (obj' : ℕ) : ∃ e', f.Makes D obj' e' := by
  obtain ⟨c, hc, hargs⟩ := h
  cases c with
  | isSyncd => exact ⟨.isSyncd obj', .isSyncd, hc, rfl⟩
  | count =>
    refine ⟨e, .count, hc, ?_⟩
    cases hf : f.args.map (Value.any D) <;> rw [hf] at hargs <;> exact hargs
  | countPercent =>
    refine ⟨e, .countPercent, hc, ?_⟩
    rcases hf : f.args.map (Value.any D) with _ | ⟨a, _ | ⟨b, as⟩⟩ <;> rw [hf] at hargs <;>
      exact hargs

/-- A function that exists is not named like a keyword. -/
theorem FuncTerm.Makes.avoids {D : DoubleParser} {f : FuncTerm} {obj : ℕ} {e : ExtFunc}
    (h : f.Makes D obj e) : Avoids ["AND", "OR"] f.function.str := by
  obtain ⟨c, hc, -⟩ := h
  unfold createInstance at hc
  split_ifs at hc with h₁ h₂ h₃
  · rw [h₁]
    unfold Avoids
    decide
  · rw [h₂]
    unfold Avoids
    decide
  · rw [h₃]
    unfold Avoids
    decide

theorem RuleParse.insertExtFunc_ok {D : DoubleParser} {condMap : List String} {N : String → Prop}
    {be : BooleanExpr CondArg} {de : DomainExpr String} {r : RuleParse} {f : FuncTerm}
    (hcond : f.cond.str ∈ condMap) (hf : ∃ obj e, f.Makes D obj e) (hr : Filled N be de r) :
    ∃ t r', insertExtFunc condMap f.function.str f.cond.str (f.arg.map Side.char)
        (f.args.map (Value.any D)) r = .ok t r' ∧
      (t.1 = f.condArg ∧ ∃ obj, f.Makes D obj t.2) ∧ Filled (fun m => N m ∨ m = f.cond.str) be de r'
    := by
  obtain ⟨r', hrun, hr'⟩ := insertConditionPtr_ok hcond false hr
  obtain ⟨obj, e₀, hmake⟩ := hf
  obtain ⟨e, c, hc, hargs⟩ := hmake.other r'.functions
  refine ⟨(f.condArg, e), { r' with functions := r'.functions + 1 }, ?_,
    ⟨rfl, r'.functions, c, hc, hargs⟩, hr'.has, hr'.boolean, hr'.domain⟩
  unfold insertExtFunc
  rw [bind_apply, hrun]
  simp only [bind_apply, hc, orThrow_ok, get_apply, modify_apply, hargs, pure_apply,
    FuncTerm.condArg]
  rcases f.arg with _ | _ | _ <;> rfl

/-! ## Functions -/

namespace BooleanExprParser

variable (D : DoubleParser) (condMap : List String) {N : String → Prop} {be : BooleanExpr CondArg}
  {de : DomainExpr String}

/-- What can stand after a condition of a boolean expression. -/
abbrev AfterCond : List Char → Prop := Followed [none, some '&', some '|', some ')', some 'W']

theorem reads_args {I : RuleParse → Prop} (x : Value) (xs : List Value) :
    Reads I (args D) (Followed [some ')'])
      (x.token :: xs.flatMap fun x => [.word ",", x.token])
      fun as s => as = (x :: xs).map (Value.any D) ∧ I s := by
  have hsep : Consumes (lit "," : RuleParser Unit) := consumes_lit (by decide)
  induction xs generalizing x with
  | nil =>
    exact .list_one_eq hsep (reads_arg D x) (fun _ _ => trivial)
      ((fails_lit rfl (by decide)).bind _)
  | cons y ys ih =>
    exact .list_cons_eq hsep (reads_arg D x) (reads_lit rfl) (ih y) fun _ _ _ => trivial

theorem reads_optSide {I : RuleParse → Prop} (o : Option Side) :
    Reads I (opt (do lit ".$"; charSt)) (Followed [some ',', some ')']) (o.elim [] Side.tokens)
      fun c s => c = o.map Side.char ∧ I s := by
  cases o with
  | none => exact reads_opt_none ((fails_lit rfl (by decide)).bind _)
  | some x =>
    have hread : Reads I (do lit ".$"; charSt) (Followed [some ',', some ')'])
        [.word ".$", x.token] fun c s => c = x.char ∧ I s :=
      .after_lit rfl (reads_charSt x)
    exact hread.opt_some

theorem reads_optArgs {I : RuleParse → Prop} (xs : List Value) :
    Reads I (opt (do lit ","; args D)) (Followed [some ')'])
      (xs.flatMap fun x => [.word ",", x.token])
      fun e s => e.getD [] = xs.map (Value.any D) ∧ I s := by
  cases xs with
  | nil => exact reads_opt_default ((fails_lit rfl (by decide)).bind _) []
  | cons x xs =>
    have hread : Reads I (do lit ","; args D) (Followed [some ')'])
        (.word "," :: x.token :: xs.flatMap fun x => [.word ",", x.token])
        fun as s => as = (x :: xs).map (Value.any D) ∧ I s :=
      .after_lit rfl (reads_args D x xs)
    exact hread.opt_getD []

theorem fails_compareOp {os : List (Option Char)} (h : ∀ c ∈ ['=', '!', '<', '>'], some c ∉ os) :
    Fails compareOp (Followed os) := by
  have hfail : ∀ {w : String} {c : Char} (o : CompareOp), w.toList.head? = some c →
      c ∈ ['=', '!', '<', '>'] → Fails (do lit w; return o : RuleParser CompareOp) (Followed os) :=
    fun _ hw hc => (fails_lit hw (h _ hc)).bind _
  exact .alt (hfail _ rfl (by decide)) (.alt (hfail _ rfl (by decide))
    (.alt (hfail _ rfl (by decide)) (.alt (hfail _ rfl (by decide))
      (.alt (hfail _ rfl (by decide)) (hfail _ rfl (by decide))))))

theorem reads_optComparison {I : RuleParse → Prop} {f : FuncTerm} (hf : f.Accepted D) :
    Reads I (opt (comparison D)) AfterCond (f.cmp.elim [] fun c => [c.1.token, c.2.token])
      fun r s => r.getD .none = f.rhv D ∧ I s := by
  unfold FuncTerm.rhv
  cases hcmp : f.cmp with
  | none =>
    have hfails : Fails compareOp AfterCond := fails_compareOp (by simp)
    exact reads_opt_default (hfails.bind _) Rhv.none
  | some c =>
    have hop : ∀ b, c.2 = .bool b → c.1 = .e ∨ c.1 = .ne :=
      fun b hb => hf.2 c.1 b (by rw [hcmp, ← hb])
    exact (reads_comparison D hop).opt_getD Rhv.none

/-- A function is read with its arguments and its comparison. -/
theorem reads_function {f : FuncTerm} (hcond : f.cond.str ∈ condMap)
    (hname : Avoids ["AND", "OR"] f.cond.str) (hf : f.Accepted D) :
    Reads (Filled N be de) (function D condMap) AfterCond f.tokens fun b s =>
      (BooleanPrimary.function f).Denotes D b ∧ Filled (fun m => N m ∨ m = f.cond.str) be de s := by
  obtain ⟨obj, e, hmake⟩ := hf.1
  show Reads _ _ _ ([f.function.token] ++ .word "(" :: ([f.cond.token] ++ (f.arg.elim [] _ ++
    (f.args.flatMap _ ++ .word ")" :: ([] ++ f.cmp.elim [] _))))) _
  refine (reads_key hmake.avoids).bind_eq (.after_lit rfl ?_) (G := fun _ => True)
    fun _ _ _ _ => trivial
  refine (reads_key hname).bind_eq ?_ (G := fun _ => True) fun _ _ _ _ => trivial
  refine (reads_optSide f.arg).bind_eq ?_ fun cs rest hsp _ => ?_
  · refine (reads_optArgs D f.args).bind (fun args => .pull fun hargs => ?_)
      fun cs rest hsp _ => hsp.followed rfl (by decide)
    rw [hargs]
    refine .after_lit rfl ?_
    refine (reads_effect fun s hs => RuleParse.insertExtFunc_ok hcond hf.1 hs).bind
      (fun t => .pull fun ht => ?_) (G := fun _ => True) fun _ _ _ _ => trivial
    refine (reads_optComparison D hf).map fun r s hr => ⟨?_, hr.2⟩
    obtain ⟨hcond, obj, hmake⟩ := ht
    exact ⟨obj, t.2, hmake, by rw [hcond, hr.1]⟩
  · cases hargs : f.args with
    | nil =>
      rw [hargs] at hsp
      exact hsp.followed rfl (by decide)
    | cons x xs =>
      rw [hargs] at hsp
      exact hsp.followed rfl (by decide)

/-! ## Trees -/

theorem booleanExpr_eq : booleanExpr D condMap =
    list (booleanAndexpr D condMap (booleanExpr D condMap)) (lit "||") :=
  rule_eq fun _ _ _ h => .list (.list (.alt (.bind_consumes (consumes_lit (by decide)) fun _ =>
    .bind h fun _ => .refl _ _) (.refl _ _)) _) _

/-- What can stand after an and-expression. -/
abbrev AfterAnd : List Char → Prop := Followed [none, some '|', some ')', some 'W']

/-- What can stand after a boolean expression. -/
abbrev AfterOr : List Char → Prop := Followed [none, some ')', some 'W']

/-- The condition exists and its name is read as a key. -/
def Known (n : Name) : Prop := n.str ∈ condMap ∧ Avoids ["AND", "OR"] n.str

theorem reads_condition {n : Name} (hn : Known condMap n) :
    Reads (Filled N be de) (booleanCond D condMap (booleanExpr D condMap)) AfterCond [n.token]
      fun b s => b = .cond (n.str, .none) ∧ Filled (fun m => N m ∨ m = n.str) be de s := by
  have hprim : Reads (Filled N be de) (do
      let a ← key
      effect (RuleParse.insertPrimitiveCond condMap a)) AfterCond ([n.token] ++ [])
      fun b s => b = .cond (n.str, .none) ∧ Filled (fun m => N m ∨ m = n.str) be de s :=
    (reads_key hn.2).bind_eq (reads_effect fun s hs => RuleParse.insertPrimitiveCond_ok hn.1 hs)
      (G := fun _ => True) fun _ _ _ _ => trivial
  -- a function starts with a name too, and has a parenthesis after it
  have hfunc : Fails (function D condMap) (Past [n.token] AfterCond) :=
    Fails.past (fun J => reads_key hn.2) ((fails_lit rfl (by decide)).bind _)
  exact (hprim.alt_right hfunc fun cs rest hsp hF => ⟨rest, hsp, hF⟩).alt_right (fails_paren n)
    fun cs rest hsp _ => hsp.token_at

end BooleanExprParser

theorem Filled.of_iff {N N' : String → Prop} {be : BooleanExpr CondArg} {de : DomainExpr String}
    {r : RuleParse} (hr : Filled N be de r) (h : ∀ m, N m ↔ N' m) : Filled N' be de r :=
  ⟨fun m => (hr.has m).trans (h m), hr.boolean, hr.domain⟩

section Trees

open BooleanExprParser

variable (D : DoubleParser) {condMap : List String} {be : BooleanExpr CondArg}
  {de : DomainExpr String}

mutual

theorem BooleanPrimary.reads : ∀ (p : BooleanPrimary) (N : String → Prop),
    (∀ n ∈ p.conds, Known condMap n) → (∀ f ∈ p.functions, f.Accepted D) →
    Reads (Filled N be de) (booleanCond D condMap (booleanExpr D condMap)) AfterCond p.tokens
      fun b s => p.Denotes D b ∧ Filled (fun m => N m ∨ m ∈ p.conds.map Name.str) be de s
  | .expr e, N, hn, hf => .alt_left ((BooleanOrExpr.reads e N hn hf).parens (by decide))
  | .condition n, N, hn, _ => by
    refine (reads_condition D condMap (hn n (List.mem_singleton_self n))).mono fun b s h => ?_
    exact ⟨h.1, h.2.of_iff fun m => by simp [BooleanPrimary.conds]⟩
  | .function f, N, hn, hf => by
    have hknown := hn f.cond (List.mem_singleton_self _)
    refine ((reads_function D condMap hknown.1 hknown.2 (hf f (List.mem_singleton_self f))).alt_left
      |>.alt_right (fails_paren f.function) fun cs rest hsp _ => hsp.token_at).mono fun b s h => ?_
    exact ⟨h.1, h.2.of_iff fun m => by simp [BooleanPrimary.conds]⟩

theorem BooleanAndExpr.reads : ∀ (a : BooleanAndExpr) (N : String → Prop),
    (∀ n ∈ a.conds, Known condMap n) → (∀ f ∈ a.functions, f.Accepted D) →
    Reads (Filled N be de) (booleanAndexpr D condMap (booleanExpr D condMap)) AfterAnd a.tokens
      fun bs s => a.Denotes D bs ∧ Filled (fun m => N m ∨ m ∈ a.conds.map Name.str) be de s
  | .one p, N, hn, hf =>
    .list_one (consumes_lit (by decide)) (BooleanPrimary.reads p N hn hf)
      (fun cs h => h.mono (by simp)) ((fails_lit rfl (by decide)).bind _)
  | .and p a, N, hn, hf => by
    obtain ⟨hnp, hna⟩ := List.forall_mem_append.1 hn
    obtain ⟨hfp, hfa⟩ := List.forall_mem_append.1 hf
    have hmore := BooleanAndExpr.reads a (fun m => N m ∨ m ∈ p.conds.map Name.str) hna hfa
    refine (Reads.list_cons (consumes_lit (by decide)) (BooleanPrimary.reads p N hnp hfp)
      (reads_lit rfl) hmore fun cs rest hsp => hsp.followed rfl (by decide)).mono fun bs s h => ?_
    exact ⟨h.1, h.2.of_iff fun m => by simp [BooleanAndExpr.conds, or_assoc]⟩

theorem BooleanOrExpr.reads : ∀ (e : BooleanOrExpr) (N : String → Prop),
    (∀ n ∈ e.conds, Known condMap n) → (∀ f ∈ e.functions, f.Accepted D) →
    Reads (Filled N be de) (booleanExpr D condMap) AfterOr e.tokens
      fun as s => e.Denotes D as ∧ Filled (fun m => N m ∨ m ∈ e.conds.map Name.str) be de s
  | .one a, N, hn, hf => by
    rw [booleanExpr_eq]
    exact .list_one (consumes_lit (by decide)) (BooleanAndExpr.reads a N hn hf)
      (fun cs h => h.mono (by simp)) ((fails_lit rfl (by decide)).bind _)
  | .or a e, N, hn, hf => by
    obtain ⟨hna, hne⟩ := List.forall_mem_append.1 hn
    obtain ⟨hfa, hfe⟩ := List.forall_mem_append.1 hf
    have hmore := BooleanOrExpr.reads e (fun m => N m ∨ m ∈ a.conds.map Name.str) hne hfe
    rw [booleanExpr_eq] at hmore ⊢
    refine (Reads.list_cons (consumes_lit (by decide)) (BooleanAndExpr.reads a N hna hfa)
      (reads_lit rfl) hmore fun cs rest hsp => hsp.followed rfl (by decide)).mono fun as s h => ?_
    exact ⟨h.1, h.2.of_iff fun m => by simp [BooleanOrExpr.conds, or_assoc]⟩

end

end Trees

/-! ## What the parser makes -/

/-- No condition is named like a keyword begins, and booleans are compared by `==` or `!=`. -/
inductive BooleanCond.Parsed : BooleanCond CondArg → Prop
  | expr {e : BooleanExpr CondArg} (h : ∀ bs ∈ e, ∀ b ∈ bs, Parsed b) : Parsed (.expr e)
  | cond {c : CondArg} (h : Avoids ["AND", "OR"] c.1) : Parsed (.cond c)
  | func {c : CondArg} {f : ExtFunc} {rhv : Rhv} (h : Avoids ["AND", "OR"] c.1)
    (hrhv : ∀ op b, rhv = .bool op b → op = .e ∨ op = .ne) : Parsed (.func c f rhv)

namespace RuleParse

variable {condMap : List String} {name : String} {r r' : RuleParse}

theorem pre_domainExpr : Pre fun r r' : RuleParse => r'.domainExpr = r.domainExpr :=
  Pre.frame RuleParse.domainExpr

theorem moves_insertConditionPtr (primitive : Bool) :
    Moves (fun r r' : RuleParse => r'.domainExpr = r.domainExpr)
      (insertConditionPtr condMap name primitive) := by
  refine moves_get_bind fun r => ?_
  split_ifs <;> rfl

theorem moves_insertExtFunc (function : String) (condArg : Option Char) (funcArgs : List Any) :
    Moves (fun r r' : RuleParse => r'.domainExpr = r.domainExpr)
      (insertExtFunc condMap function name condArg funcArgs) := by
  refine moves_bind pre_domainExpr (moves_insertConditionPtr false) fun _ => ?_
  refine moves_bind pre_domainExpr (moves_orThrow pre_domainExpr _) fun c => ?_
  refine moves_bind pre_domainExpr (fun _ => rfl) fun r => ?_
  refine moves_bind pre_domainExpr (moves_modify fun _ => rfl) fun _ => ?_
  refine moves_bind pre_domainExpr (moves_orThrow pre_domainExpr _) fun o => ?_
  cases o with
  | none => exact moves_throw pre_domainExpr _
  | some f => exact moves_pure pre_domainExpr _

theorem insertExtFunc_name {function : String} {condArg : Option Char} {funcArgs : List Any}
    {t : CondArg × ExtFunc}
    (h : insertExtFunc condMap function name condArg funcArgs r = .ok t r') : t.1.1 = name := by
  obtain ⟨_, r₁, -, h⟩ := bind_ok.1 h
  obtain ⟨c, r₂, -, h⟩ := bind_ok.1 h
  obtain ⟨r₃, r₄, -, h⟩ := bind_ok.1 h
  obtain ⟨_, r₅, -, h⟩ := bind_ok.1 h
  obtain ⟨o, r₆, -, h⟩ := bind_ok.1 h
  cases o with
  | none => cases h
  | some f =>
    cases h
    rfl

end RuleParse

namespace BooleanExprParser

variable (D : DoubleParser) (condMap : List String) {de : DomainExpr String}

theorem ensures_compareOp {I : RuleParse → Prop} : Ensures I (fun _ => True) compareOp := by
  have hword : ∀ (w : String) (o : CompareOp),
      Ensures I (fun _ => True) (do lit w; return o : RuleParser CompareOp) :=
    fun _ _ => (ensures_token _).bind fun _ _ => ensures_pure trivial
  exact .alt (hword _ _) (.alt (hword _ _) (.alt (hword _ _) (.alt (hword _ _)
    (.alt (hword _ _) (hword _ _)))))

theorem ensures_args {I : RuleParse → Prop} : Ensures I (fun _ => True) (args D) := by
  have harg : Ensures I (fun _ => True) (arg D) := by
    refine .alt ?_ (.alt ?_ ?_)
    · exact (ensures_token _).bind fun _ _ => ensures_pure trivial
    · exact ensures_bool.bind fun _ _ => ensures_pure trivial
    · exact ensures_str.bind fun _ _ => ensures_pure trivial
  exact (harg.list (ensures_token _)).mono fun _ _ => trivial

theorem ensures_comparison {I : RuleParse → Prop} :
    Ensures I (fun r => ∀ op b, r = .bool op b → op = .e ∨ op = .ne) (comparison D) := by
  refine ensures_compareOp.bind fun op _ => .alt ?_ (.alt ?_ ?_)
  · exact (ensures_token _).bind fun _ _ => ensures_pure fun _ _ h => nomatch h
  · refine ensures_bool.bind fun b _ => ensures_effect fun s r s' hs h => ?_
    cases op <;> cases h
    · exact ⟨fun op' b' h => .inl (by cases h; rfl), hs⟩
    · exact ⟨fun op' b' h => .inr (by cases h; rfl), hs⟩
  · exact ensures_str.bind fun _ _ => ensures_pure fun _ _ h => nomatch h

theorem ensures_function :
    Ensures (fun r => r.domainExpr = de) BooleanCond.Parsed (function D condMap) := by
  refine ensures_key.bind fun a _ => (ensures_token _).bind fun _ _ => ?_
  refine ensures_key.bind fun d hd => (Ensures.opt (P := fun _ => True) ?_).bind fun b _ => ?_
  · exact (ensures_token _).bind fun _ _ => ensures_token (.sat _)
  refine (Ensures.opt (P := fun _ => True) ?_).bind fun e _ => (ensures_token _).bind fun _ _ => ?_
  · exact (ensures_token _).bind fun _ _ => ensures_args D
  refine (ensures_effect (P := fun t => t.1.1 = d) fun s t s' hs h => ?_).bind fun t ht => ?_
  · exact ⟨RuleParse.insertExtFunc_name h,
      ((RuleParse.moves_insertExtFunc a b _).of_ok h).trans hs⟩
  refine (ensures_comparison D).opt.bind fun rhv hrhv => ensures_pure (.func (ht ▸ hd) ?_)
  cases rhv with
  | none => exact fun _ _ h => nomatch h
  | some r => exact hrhv r rfl

/-- The conditions of an expression the parser reads are not named like keywords. -/
theorem ensures_booleanExpr : Ensures (fun r => r.domainExpr = de)
    (fun e => ∀ bs ∈ e, ∀ b ∈ bs, b.Parsed) (booleanExpr D condMap) := by
  refine ensures_rule fun p hp => .list (.list (.alt ?_ (.alt (ensures_function D condMap) ?_))
    (ensures_token _)) (ensures_token _)
  · refine (ensures_token _).bind fun _ _ => hp.bind fun e he => ?_
    exact (ensures_token _).bind fun _ _ => ensures_pure (.expr he)
  · refine ensures_key.bind fun a ha => ensures_effect fun s b s' hs h => ?_
    obtain ⟨_, r₁, hcond, h⟩ := bind_ok.1 h
    cases h
    exact ⟨.cond ha, ((RuleParse.moves_insertConditionPtr true).of_ok hcond).trans hs⟩

end BooleanExprParser

section Trees

variable {D : DoubleParser}

mutual

theorem BooleanPrimary.of_parsed : ∀ {p : BooleanPrimary} {b : BooleanCond CondArg},
    p.Denotes D b → b.Parsed →
      (∀ n ∈ p.conds, Avoids ["AND", "OR"] n.str) ∧ ∀ f ∈ p.functions, f.Accepted D
  | .expr e, b, h, hb => by
    obtain ⟨as, rfl, has⟩ := h
    cases hb with
    | expr hb => exact BooleanOrExpr.of_parsed has hb
  | .condition n, b, h, hb => by
    obtain rfl : b = .cond (n.str, .none) := h
    cases hb with
    | cond hn => exact ⟨List.forall_mem_singleton.2 hn, fun _ h => nomatch h⟩
  | .function f, b, h, hb => by
    obtain ⟨obj, e, hmake, rfl⟩ := h
    cases hb with
    | func hn hrhv =>
      refine ⟨List.forall_mem_singleton.2 hn, List.forall_mem_singleton.2 ⟨⟨obj, e, hmake⟩, ?_⟩⟩
      intro op v hcmp
      exact hrhv op v (by rw [FuncTerm.rhv, hcmp]; rfl)

theorem BooleanAndExpr.of_parsed : ∀ {a : BooleanAndExpr} {bs : List (BooleanCond CondArg)},
    a.Denotes D bs → (∀ b ∈ bs, b.Parsed) →
      (∀ n ∈ a.conds, Avoids ["AND", "OR"] n.str) ∧ ∀ f ∈ a.functions, f.Accepted D
  | .one p, bs, h, hbs => by
    obtain ⟨b, rfl, hb⟩ := h
    exact BooleanPrimary.of_parsed hb (List.forall_mem_singleton.1 hbs)
  | .and p a, bs, h, hbs => by
    obtain ⟨b, bs', rfl, hb, hbs'⟩ := h
    obtain ⟨hn, hf⟩ := BooleanPrimary.of_parsed hb (List.forall_mem_cons.1 hbs).1
    obtain ⟨hn', hf'⟩ := BooleanAndExpr.of_parsed hbs' (List.forall_mem_cons.1 hbs).2
    exact ⟨List.forall_mem_append.2 ⟨hn, hn'⟩, List.forall_mem_append.2 ⟨hf, hf'⟩⟩

theorem BooleanOrExpr.of_parsed : ∀ {e : BooleanOrExpr} {as : BooleanExpr CondArg},
    e.Denotes D as → (∀ bs ∈ as, ∀ b ∈ bs, b.Parsed) →
      (∀ n ∈ e.conds, Avoids ["AND", "OR"] n.str) ∧ ∀ f ∈ e.functions, f.Accepted D
  | .one a, as, h, has => by
    obtain ⟨bs, rfl, hbs⟩ := h
    exact BooleanAndExpr.of_parsed hbs (List.forall_mem_singleton.1 has)
  | .or a e, as, h, has => by
    obtain ⟨bs, as', rfl, hbs, has'⟩ := h
    obtain ⟨hn, hf⟩ := BooleanAndExpr.of_parsed hbs (List.forall_mem_cons.1 has).1
    obtain ⟨hn', hf'⟩ := BooleanOrExpr.of_parsed has' (List.forall_mem_cons.1 has).2
    exact ⟨List.forall_mem_append.2 ⟨hn, hn'⟩, List.forall_mem_append.2 ⟨hf, hf'⟩⟩

end

end Trees

end MfExtensions
