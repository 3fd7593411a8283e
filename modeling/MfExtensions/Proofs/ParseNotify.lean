import MfExtensions.Lib.PegActions
import MfExtensions.Proofs.ParseRule
import MfExtensions.Registration

/-!
# What a rule registers while it is parsed

The actions of the parser put a rule on the lists of its conditions while it reads, and stay when
it turns back. A text that is a rule all the same puts it on the lists its expressions name and on
no other (`parse_notified`): where the parser turns back after an action, it stops in front of a
word that nothing can follow.
-/

namespace MfExtensions

open Peg Peg.Parser Exec

/-! ## The actions -/

namespace RuleParse

variable {condMap : List String} {name : String} {r r' : RuleParse}

/-- A condition named in the boolean expression, with its function or as a primitive. -/
def addLeaf (x : CondArg × Option ExtFunc) (r : RuleParse) : RuleParse :=
  { r with
    conditions := MfExtensions.insertConditionPtr x.1.1 x.2.isNone r.conditions
    notified := if r.has x.1.1 then r.notified else r.notified ++ [(x.1.1, ArgT.none)]
    functions := if x.2.isNone then r.functions else r.functions + 1 }

/-- A source or target named in the `WHERE` clause. -/
def addArg (c : CondArg) (r : RuleParse) : RuleParse := { r with notified := r.notified ++ [c] }

theorem insertConditionPtr_eq {primitive : Bool}
    (h : insertConditionPtr condMap name primitive r = .ok () r') : r' = { r with
      conditions := MfExtensions.insertConditionPtr name primitive r.conditions
      notified := if r.has name then r.notified else r.notified ++ [(name, ArgT.none)] } := by
  unfold insertConditionPtr at h
  rw [bind_apply, get_apply] at h
  dsimp only at h
  split_ifs at h
  · rw [modify_apply] at h
    cases h
    rfl
  · cases h

theorem insertPrimitiveCond_leaf {b : BooleanCond CondArg}
    (h : insertPrimitiveCond condMap name r = .ok b r') :
    r' = b.leaves.foldl (fun r x => addLeaf x r) r := by
  obtain ⟨⟨⟩, r₁, hcond, hret⟩ := bind_ok.1 h
  cases hret
  exact insertConditionPtr_eq hcond

theorem insertExtFunc_leaf {function : String} {condArg : Option Char} {funcArgs : List Any}
    {t : CondArg × ExtFunc}
    (h : insertExtFunc condMap function name condArg funcArgs r = .ok t r') :
    r' = [(t.1, some t.2)].foldl (fun r x => addLeaf x r) r := by
  have hstill : ∀ {α : Type} (x : Except Err α) {r r' : RuleParse} {a : α},
      orThrow x r = .ok a r' → r' = r := fun x _ _ _ hx => (moves_orThrow (Pre.frame id) x).of_ok hx
  obtain ⟨⟨⟩, r₁, hcond, h⟩ := bind_ok.1 h
  obtain ⟨c, r₂, hc, h⟩ := bind_ok.1 h
  obtain ⟨r₃, r₄, hget, h⟩ := bind_ok.1 h
  obtain ⟨⟨⟩, r₅, hmodify, h⟩ := bind_ok.1 h
  obtain ⟨o, r₆, ho, h⟩ := bind_ok.1 h
  cases hget
  cases hmodify
  obtain rfl := hstill _ hc
  obtain rfl := hstill _ ho
  cases o with
  | none => cases h
  | some f =>
    cases h
    rw [insertConditionPtr_eq hcond]
    rfl

theorem insertCondArg_arg {arg : Char} {c : CondArg} (h : insertCondArg name arg r = .ok c r') :
    r' = [c].foldl (fun r c => addArg c r) r := by
  rw [insertCondArg_eq] at h
  by_cases hhas : r.has name = true
  · rw [if_pos hhas] at h
    cases h
    rfl
  · rw [if_neg hhas] at h
    cases h

end RuleParse

/-! ## The boolean expression -/

theorem still_token {α : Type} (scan : Scanner α) : Still (token scan : RuleParser α) :=
  fun _ => ensures_token scan

theorem noName_of_paren {cs : List Char} (h : Followed [some '('] cs) : NoName cs := by
  intro c hc
  rw [List.mem_singleton.1 h, Option.mem_some_iff] at hc
  rw [← hc]
  rfl

theorem leavesAnd_eq {C : Type} (bs : List (BooleanCond C)) :
    BooleanCond.leavesAnd bs = bs.flatMap BooleanCond.leaves := by
  induction bs with
  | nil => rfl
  | cons b bs ih => rw [BooleanCond.leavesAnd, List.flatMap_cons, ih]

theorem leavesOr_eq {C : Type} (as : List (List (BooleanCond C))) :
    BooleanCond.leavesOr as = as.flatMap fun bs => bs.flatMap BooleanCond.leaves := by
  induction as with
  | nil => rfl
  | cons a as ih => rw [BooleanCond.leavesOr, List.flatMap_cons, leavesAnd_eq, ih]

namespace BooleanExprParser

variable (D : DoubleParser) (condMap : List String)

theorem fails_key : Fails key NoName :=
  fails_keyOf (.alt (fails_noCase_noName (by decide) (by decide))
    (fails_noCase_noName (by decide) (by decide)))

theorem still_key : Still key := fun _ => ensures_key.mono fun _ _ => trivial

/-- A function takes its action where nothing after it can fail. -/
theorem acts_function : Acts RuleParse.addLeaf BooleanCond.leaves (fun _ => False) False
    (function D condMap) := by
  refine .after still_key fun a => .after (still_token _) fun _ => .after still_key fun d => ?_
  refine .after (Still.opt ?_) fun b => .after (Still.opt ?_) fun e => ?_
  · exact (still_token _).bind fun _ => still_token (.sat _)
  · exact (still_token _).bind fun _ => fun _ => ensures_args D
  refine .after (still_token _) fun _ => ?_
  have heffect : Acts RuleParse.addLeaf (fun t : CondArg × ExtFunc => [(t.1, some t.2)])
      (fun _ => False) False (effect (RuleParse.insertExtFunc condMap a d b (e.getD []))) :=
    acts_effect fun _ _ _ h => RuleParse.insertExtFunc_leaf h
  refine heffect.before (fun t => (total_opt _).map _) fun t s => ?_
  exact ((ensures_comparison D).mono fun _ _ => trivial).opt.bind fun _ _ => ensures_pure rfl

theorem acts_primitive : Acts RuleParse.addLeaf BooleanCond.leaves (fun _ => False) False (do
    let a ← key
    effect (RuleParse.insertPrimitiveCond condMap a)) :=
  .after still_key fun _ => acts_effect fun _ _ _ h => RuleParse.insertPrimitiveCond_leaf h

/-- What a boolean expression cannot be followed by. -/
abbrev Cut (o : Option Char) : Prop := o = some '&' ∨ o = some '|'

/-- An expression that is read has registered its conditions, or stands in front of an operator. -/
theorem acts_booleanExpr : Acts RuleParse.addLeaf BooleanExpr.leaves Cut True
    (booleanExpr D condMap) := by
  refine acts_rule fun p hp => ?_
  have hfails : Fails (function D condMap <|> do
      let a ← key
      effect (RuleParse.insertPrimitiveCond condMap a)) (Followed [some '(']) :=
    .alt (fun cs s h => fails_key.bind _ cs s (noName_of_paren h))
      fun cs s h => fails_key.bind _ cs s (noName_of_paren h)
  have hcond : Acts RuleParse.addLeaf BooleanCond.leaves (fun _ => False) True
      (booleanCond D condMap p) :=
    hp.parens_alt (by simp) (fun _ => rfl)
      ((acts_function D condMap).alt (acts_primitive condMap)) hfails
  have hleaves : (BooleanExpr.leaves : BooleanExpr CondArg → _) = fun e =>
      e.flatMap fun bs => bs.flatMap BooleanCond.leaves := funext leavesOr_eq
  rw [hleaves]
  exact hcond.list_list (w := "&&") (v := "||") rfl rfl (by decide)

end BooleanExprParser

/-! ## The `WHERE` clause -/

theorem argsAnd_eq {C : Type} (bs : List (DomainCond C)) :
    DomainCond.argsAnd bs = bs.flatMap DomainCond.args := by
  induction bs with
  | nil => rfl
  | cons b bs ih => rw [DomainCond.argsAnd, List.flatMap_cons, ih]

theorem argsOr_eq {C : Type} (as : List (List (DomainCond C))) :
    DomainCond.argsOr as = as.flatMap fun bs => bs.flatMap DomainCond.args := by
  induction as with
  | nil => rfl
  | cons a as ih => rw [DomainCond.argsOr, List.flatMap_cons, argsAnd_eq, ih]

namespace DomainExprParser

theorem still_key : Still key := fun _ => ensures_key.mono fun _ _ => trivial

theorem acts_condArg : Acts RuleParse.addArg (fun c => [c]) (fun _ => False) False condArg :=
  .after still_key fun _ => .after (still_token _) fun _ => .after (still_token _) fun _ =>
    acts_effect fun _ _ _ h => RuleParse.insertCondArg_arg h

/-- What comes after the sources and targets of a chain takes no action. -/
theorem acts_chain : Acts RuleParse.addArg DomainCond.args (fun _ => False) False (do
    let conds ← list condArg (lit "=")
    let s ← opt (do
      lit "="
      str <|> (do lit "ANY"; return ""))
    return .chain conds (s.getD "")) := by
  have hlist := (acts_condArg.list (w := "=") (c := '=') rfl id).mono
    (fun o h => h.elim id And.left) id
  refine hlist.before (fun _ => (total_opt _).map _) fun conds s => ?_
  refine (Ensures.opt (P := fun _ => True) ?_).bind fun o _ => ensures_pure ?_
  · refine (ensures_token _).bind fun _ _ => .alt ensures_str ?_
    exact (ensures_token _).bind fun _ _ => ensures_pure trivial
  · exact (List.flatMap_singleton' conds).symm

/-- What a domain expression cannot be followed by. -/
abbrev Cut (o : Option Char) : Prop := o = some 'A' ∨ o = some 'O'

/-- An expression that is read has registered its sources and targets, or stands in front of an
operator. -/
theorem acts_domainExpr : Acts RuleParse.addArg DomainExpr.args Cut True domainExpr := by
  refine acts_rule fun p hp => ?_
  have hfails : Fails (list condArg (lit "=")) (Followed [some '(']) :=
    .bind (.bind (fun cs s h => fails_key cs s (noName_of_paren h)) _) _
  have hcond : Acts RuleParse.addArg DomainCond.args (fun _ => False) True (domainCond p) :=
    hp.parens_alt (by simp) (fun _ => rfl) acts_chain (hfails.bind _)
  have hargs : (DomainExpr.args : DomainExpr String → _) = fun e =>
      e.flatMap fun bs => bs.flatMap DomainCond.args := funext argsOr_eq
  rw [hargs]
  exact hcond.list_list (w := "AND") (v := "OR") rfl rfl (by decide)

end DomainExprParser

/-! ## The rule -/

namespace RuleParse

theorem foldl_addArg : ∀ (cs : List CondArg) (r : RuleParse),
    cs.foldl (fun r c => addArg c r) r = { r with notified := r.notified ++ cs }
  | [], r => by simp
  | c :: cs, r => by
    rw [List.foldl_cons, foldl_addArg cs, addArg]
    simp

/-- A condition is on the list of what is notified once, when it is first named. -/
theorem foldl_addLeaf : ∀ (ls : List (CondArg × Option ExtFunc)) {r : RuleParse},
    r.notified = r.conditions.map (fun p => (p.1, ArgT.none)) → ∃ n,
    ls.foldl (fun r x => addLeaf x r) r = { r with
      conditions := ls.foldl (fun ps x => MfExtensions.insertConditionPtr x.1.1 x.2.isNone ps)
        r.conditions
      notified := (ls.foldl (fun ps x => MfExtensions.insertConditionPtr x.1.1 x.2.isNone ps)
        r.conditions).map fun p => (p.1, ArgT.none)
      functions := n }
  | [], r, h => ⟨r.functions, by simp [← h]⟩
  | x :: ls, r, h => by
    have hmap : ∀ ps : List (String × Bool), ps.map (fun p => (p.1, ArgT.none)) =
        (ps.map Prod.fst).map fun name => (name, ArgT.none) := fun ps => by simp
    have hx : (addLeaf x r).notified =
        (addLeaf x r).conditions.map fun p => (p.1, ArgT.none) := by
      unfold addLeaf
      dsimp only
      rw [hmap, map_fst_insertConditionPtr, h, hmap]
      by_cases hhas : r.has x.1.1 = true
      · rw [if_pos hhas, if_pos (has_iff.1 hhas)]
      · rw [if_neg hhas, if_neg fun hmem => hhas (has_iff.2 hmem)]
        simp
    obtain ⟨n, hn⟩ := foldl_addLeaf ls hx
    exact ⟨n, by rw [List.foldl_cons, hn]; rfl⟩

end RuleParse

/-- The clause of a text that ends has taken its actions. -/
theorem whereClause_ok {cs rest : List Char} {r r' : RuleParse} {u : Option Unit}
    (h : whereClause.run cs r = .ok u rest r') (hrest : skip rest = [])
    (hr : r.domainExpr = []) :
    (next cs = none ∨ next cs = some 'W') ∧ ∃ e, r' = { r with
      notified := r.notified ++ DomainExpr.args e
      domainExpr := e } := by
  have hend : next rest = none := by rw [next, hrest]; rfl
  rcases altRun_ok h with hrun | ⟨t, hmiss, hnone⟩
  · obtain ⟨v, mid, t, hrun, hret⟩ := Outcome.bind_ok hrun
    obtain ⟨⟨⟩, mid₁, t₁, hlit, hrun⟩ := Outcome.bind_ok hrun
    obtain ⟨e, mid₂, t₂, hdomain, hset⟩ := Outcome.bind_ok hrun
    cases hret
    cases hset
    obtain ⟨rfl, hnext⟩ := lit_ok hlit rfl
    refine ⟨.inr hnext, e, ?_⟩
    rw [(DomainExprParser.acts_domainExpr.ok hdomain).resolve_right (by simp [hend]),
      RuleParse.foldl_addArg]
  · cases hnone
    have hfails : Fails (lit "WHERE" : RuleParser Unit) (Followed [none]) :=
      fails_lit rfl (by decide)
    rw [(hfails.bind _).bind _ cs r (List.mem_singleton.2 hend)] at hmiss
    cases hmiss
    exact ⟨.inl hend, [], by simp [DomainExpr.args, DomainCond.argsOr, ← hr]⟩

/-- A rule that is read is notified of the conditions of its boolean expression, each put on the
list once, and then of the sources and targets of its clause. -/
theorem parse_notified {D : DoubleParser} {condMap : List String} {text : String} {r : RuleParse}
    (h : parseConditionExpr D condMap text {} = .ok true r) :
    r.conditions = r.booleanExpr.leaves.foldl
      (fun ps x => insertConditionPtr x.1.1 x.2.isNone ps) [] ∧
    r.notified = r.conditions.map (fun p => (p.1, ArgT.none)) ++ r.domainExpr.args := by
  obtain ⟨e, mid, r₁, u, rest, hbool, hwhere, hrest⟩ := parse_true_iff.1 h
  obtain ⟨n, hleaves⟩ := RuleParse.foldl_addLeaf e.leaves (r := {}) rfl
  have hempty : r₁.domainExpr = [] :=
    ((BooleanExprParser.ensures_booleanExpr D condMap).of_ok rfl hbool).2
  obtain ⟨hnext, w, rfl⟩ := whereClause_ok hwhere hrest hempty
  have hfree : ¬BooleanExprParser.Cut (next mid) := by
    rcases hnext with hnext | hnext <;> rw [hnext] <;> decide
  have hacts := (BooleanExprParser.acts_booleanExpr D condMap).ok hbool
  rw [hacts.resolve_right hfree, hleaves]
  exact ⟨rfl, rfl⟩

/-! ## The rule of a configuration -/

/-- The list an entry of `notified` is about. -/
def ArgT.listT (arg : ArgT) : NotifyT := if arg = .none then .status else arg.notifyT

namespace RuleConfig

variable {C : Type} [DecidableEq C] {name : C → String} {k : RuleConfig C} {r : RuleParse}

/-- The rule is what was read, with the conditions under their names. -/
structure Parsed (name : C → String) (k : RuleConfig C) (r : RuleParse) : Prop where
  leaves : r.booleanExpr.leaves.map (fun x => (x.1.1, x.2.isNone)) =
    k.booleanExpr.leaves.map fun x => (name x.1, x.2.isNone)
  args : r.domainExpr.args = k.domainExpr.args.map fun p => (name p.1, p.2)

theorem insertConditionPtr_map (hname : Function.Injective name) (c : C) (b : Bool) :
    ∀ ps : List (C × Bool), (insertConditionPtr c b ps).map (fun p => (name p.1, p.2)) =
      insertConditionPtr (name c) b (ps.map fun p => (name p.1, p.2))
  | [] => rfl
  | p :: ps => by
    simp only [insertConditionPtr, List.map_cons, hname.eq_iff]
    split_ifs with h
    · rfl
    · rw [List.map_cons, insertConditionPtr_map hname c b ps]

theorem foldl_insertConditionPtr_map (hname : Function.Injective name) :
    ∀ (ls : List (C × Bool)) (ps : List (C × Bool)),
      (ls.foldl (fun ps x => insertConditionPtr x.1 x.2 ps) ps).map (fun p => (name p.1, p.2)) =
        (ls.map fun p => (name p.1, p.2)).foldl (fun ps x => insertConditionPtr x.1 x.2 ps)
          (ps.map fun p => (name p.1, p.2))
  | [], ps => rfl
  | x :: ls, ps => by
    rw [List.foldl_cons, foldl_insertConditionPtr_map hname ls, List.map_cons, List.foldl_cons,
      insertConditionPtr_map hname]

/-- The parser puts a rule on the lists the configuration says. -/
theorem Parsed.notified (hk : k.Parsed name r) (hname : Function.Injective name)
    {D : DoubleParser} {condMap : List String} {text : String}
    (h : parseConditionExpr D condMap text {} = .ok true r) :
    r.notified.map (fun n => (n.2.listT, n.1)) = k.notified.map fun n => (n.1, name n.2) := by
  obtain ⟨hconds, hnotified⟩ := parse_notified h
  have hnamed : r.conditions = k.booleanExpr.registered.map fun p => (name p.1, p.2) := calc
    r.conditions = (r.booleanExpr.leaves.map fun x => (x.1.1, x.2.isNone)).foldl
        (fun ps x => insertConditionPtr x.1 x.2 ps) [] := by rw [hconds, List.foldl_map]
    _ = ((k.booleanExpr.leaves.map fun x => (x.1, x.2.isNone)).map fun p =>
        (name p.1, p.2)).foldl (fun ps x => insertConditionPtr x.1 x.2 ps) [] := by
      rw [hk.leaves, List.map_map]
      rfl
    _ = ((k.booleanExpr.leaves.map fun x => (x.1, x.2.isNone)).foldl
        (fun ps x => insertConditionPtr x.1 x.2 ps) []).map fun p => (name p.1, p.2) :=
      (foldl_insertConditionPtr_map hname _ []).symm
    _ = k.booleanExpr.registered.map fun p => (name p.1, p.2) := by
      rw [List.foldl_map]
      rfl
  have hargs : ∀ p ∈ k.domainExpr.args, p.2.listT = p.2.notifyT := by
    intro p hp
    have hne : p.2 ≠ .none := by
      rcases DomainCond.source_or_targetOr k.domainGrammatical p hp with h | h <;> simp [h]
    exact if_neg hne
  rw [hnotified, hnamed, hk.args, RuleConfig.notified, List.map_append, List.map_append]
  congr 1
  · simp [RuleConfig.conditions, ArgT.listT]
  · simp only [List.map_map]
    exact List.map_congr_left fun p hp => by rw [Function.comp, hargs p hp]; rfl

end RuleConfig

end MfExtensions
