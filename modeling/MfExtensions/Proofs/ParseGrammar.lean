import MfExtensions.Proofs.ParseNotify
import MfExtensions.Renaming

/-!
# What the parser accepts

Whatever the text, a rule that is parsed is one of the grammar, its conditions are among those of
the engine, and the `WHERE` clause is about its own (`parse_grammatical`). The boolean expression of
the rule is the one the grammar makes without the arguments of its conditions (`BooleanCond.map`).
-/

namespace MfExtensions

open Peg Peg.Parser Exec

/-! ## The boolean expression -/

section Boolean

variable {A : Type}

theorem grammaticalAnd_iff {bs : List (BooleanCond A)} :
    BooleanCond.grammaticalAnd bs = true ↔ ∀ b ∈ bs, b.grammatical = true := by
  induction bs with
  | nil => simp [BooleanCond.grammaticalAnd]
  | cons b bs ih => simp [BooleanCond.grammaticalAnd, ih]

theorem grammaticalOr_iff {e : List (List (BooleanCond A))} : BooleanCond.grammaticalOr e = true ↔
    ∀ bs ∈ e, bs ≠ [] ∧ ∀ b ∈ bs, b.grammatical = true := by
  induction e with
  | nil => simp [BooleanCond.grammaticalOr]
  | cons bs e ih => simp [BooleanCond.grammaticalOr, grammaticalAnd_iff, ih, and_assoc]

theorem BooleanExpr.grammatical_of {e : BooleanExpr A}
    (h : e ≠ [] ∧ ∀ bs ∈ e, bs ≠ [] ∧ ∀ b ∈ bs, b.grammatical = true) :
    BooleanExpr.grammatical e = true := by
  rw [BooleanExpr.grammatical, grammaticalOr_iff.2 h.2]
  simpa using h.1

end Boolean

namespace RuleParse

variable {condMap : List String} {name : String} {r r' : RuleParse}

/-- The conditions of the rule are found in the engine. -/
def Found (condMap : List String) (r : RuleParse) : Prop := ∀ p ∈ r.conditions, p.1 ∈ condMap

theorem found_insertConditionPtr {primitive : Bool} (hr : Found condMap r)
    (h : insertConditionPtr condMap name primitive r = .ok () r') : Found condMap r' := by
  unfold insertConditionPtr at h
  rw [bind_apply, get_apply] at h
  dsimp only at h
  split_ifs at h with hif
  · rw [modify_apply] at h
    cases h
    have hname : name ∈ condMap := by
      rcases Bool.or_eq_true_iff.1 hif with hhas | helem
      · obtain ⟨p, hp, rfl⟩ := List.mem_map.1 (has_iff.1 hhas)
        exact hr p hp
      · simpa using helem
    intro p hp
    rcases mem_insertConditionPtr.1 (List.mem_map_of_mem hp) with hmem | hself
    · obtain ⟨q, hq, hqp⟩ := List.mem_map.1 hmem
      rw [← hqp]
      exact hr q hq
    · rw [hself]
      exact hname
  · cases h

end RuleParse

namespace BooleanExprParser

variable (D : DoubleParser) (condMap : List String)

theorem found_function : Ensures (RuleParse.Found condMap)
    (fun b => b.grammatical = true) (function D condMap) := by
  refine ensures_key.bind fun a _ => (ensures_token _).bind fun _ _ => ?_
  refine ensures_key.bind fun d _ => (Ensures.opt (P := fun _ => True) ?_).bind fun b _ => ?_
  · exact (ensures_token _).bind fun _ _ => ensures_token (.sat _)
  refine (Ensures.opt (P := fun _ => True) ?_).bind fun e _ => (ensures_token _).bind fun _ _ => ?_
  · exact (ensures_token _).bind fun _ _ => ensures_args D
  refine (ensures_effect (P := fun _ => True) fun s t s' hs h => ⟨trivial, ?_⟩).bind fun t _ => ?_
  · obtain ⟨⟨⟩, r₁, hcond, -⟩ := bind_ok.1 h
    have hconds : s'.conditions = r₁.conditions := by
      rw [RuleParse.insertExtFunc_leaf h, RuleParse.insertConditionPtr_eq hcond]
      simp only [List.foldl_cons, List.foldl_nil, RuleParse.addLeaf, RuleParse.insertExtFunc_name h,
        Option.isNone_some]
    exact fun p hp => RuleParse.found_insertConditionPtr hs hcond p (hconds ▸ hp)
  · refine (ensures_comparison D).opt.bind fun rhv _ => ensures_pure rfl

/-- An expression that is read is one of the grammar. -/
theorem found_booleanExpr : Ensures (RuleParse.Found condMap)
    (fun e => BooleanExpr.grammatical e = true) (booleanExpr D condMap) := by
  refine ensures_rule fun p hp => ?_
  refine ((Ensures.list_ne_nil (.list_ne_nil (P := fun b => b.grammatical = true) (.alt ?_
    (.alt (found_function D condMap) ?_)) (ensures_token _)) (ensures_token _))).mono
      fun e he => BooleanExpr.grammatical_of he
  · refine (ensures_token _).bind fun _ _ => hp.bind fun e he => ?_
    exact (ensures_token _).bind fun _ _ => ensures_pure he
  · refine ensures_key.bind fun a _ => ensures_effect fun s b s' hs h => ?_
    obtain ⟨⟨⟩, r₁, hcond, h⟩ := bind_ok.1 h
    cases h
    exact ⟨rfl, RuleParse.found_insertConditionPtr hs hcond⟩

end BooleanExprParser

/-! ## The `WHERE` clause -/

theorem domain_grammaticalAnd_iff {A : Type} {bs : List (DomainCond A)} :
    DomainCond.grammaticalAnd bs = true ↔ ∀ b ∈ bs, b.grammatical = true := by
  induction bs with
  | nil => simp [DomainCond.grammaticalAnd]
  | cons b bs ih => simp [DomainCond.grammaticalAnd, ih]

theorem domain_grammaticalOr_iff {A : Type} {e : List (List (DomainCond A))} :
    DomainCond.grammaticalOr e = true ↔ ∀ bs ∈ e, bs ≠ [] ∧ ∀ b ∈ bs, b.grammatical = true := by
  induction e with
  | nil => simp [DomainCond.grammaticalOr]
  | cons bs e ih => simp [DomainCond.grammaticalOr, domain_grammaticalAnd_iff, ih, and_assoc]

/-- A condition of the grammar that is about these conditions. -/
def DomainCond.About (N : String → Prop) (b : DomainCond String) : Prop :=
  b.grammatical = true ∧ ∀ p ∈ b.args, N p.1

/-- A clause of the grammar that is about these conditions. -/
def DomainExpr.About (N : String → Prop) (e : DomainExpr String) : Prop :=
  DomainExpr.grammatical e = true ∧ ∀ p ∈ DomainExpr.args e, N p.1

theorem DomainExpr.about_of {N : String → Prop} {e : DomainExpr String}
    (h : ∀ bs ∈ e, bs ≠ [] ∧ ∀ b ∈ bs, DomainCond.About N b) : DomainExpr.About N e := by
  refine ⟨domain_grammaticalOr_iff.2 fun bs hbs => ⟨(h bs hbs).1, fun b hb =>
    ((h bs hbs).2 b hb).1⟩, fun p hp => ?_⟩
  rw [DomainExpr.args, argsOr_eq] at hp
  obtain ⟨bs, hbs, hp⟩ := List.mem_flatMap.1 hp
  obtain ⟨b, hb, hp⟩ := List.mem_flatMap.1 hp
  exact ((h bs hbs).2 b hb).2 p hp

/-- The rule has these conditions, and its clause is about them. -/
structure RuleParse.Bound (N : String → Prop) (r : RuleParse) : Prop where
  has : ∀ name, r.has name = true → N name
  about : DomainExpr.About N r.domainExpr

namespace DomainExprParser

variable {N : String → Prop}

theorem bound_condArg : Ensures (RuleParse.Bound N)
    (fun c => (c.2 = .source ∨ c.2 = .target) ∧ N c.1) condArg := by
  refine ensures_key.bind fun a _ => (ensures_token _).bind fun _ _ => ?_
  refine (ensures_token _).bind fun arg _ => ensures_effect fun s c s' hs h => ?_
  rw [RuleParse.insertCondArg_eq] at h
  by_cases hhas : s.has a = true
  · rw [if_pos hhas] at h
    cases h
    refine ⟨⟨?_, hs.has a hhas⟩, hs.has, hs.about⟩
    by_cases hs : arg = 's'
    · exact .inl (if_pos hs)
    · exact .inr (if_neg hs)
  · rw [if_neg hhas] at h
    cases h

theorem bound_chain : Ensures (RuleParse.Bound N) (DomainCond.About N) (do
    let conds ← list condArg (lit "=")
    let s ← opt (do
      lit "="
      str <|> (do lit "ANY"; return ""))
    return .chain conds (s.getD "")) := by
  refine (bound_condArg.list_ne_nil (ensures_token _)).bind fun cs hcs => ?_
  refine (Ensures.opt (P := fun _ => True) ?_).bind fun o _ => ensures_pure ⟨?_, fun p hp => ?_⟩
  · refine (ensures_token _).bind fun _ _ => .alt ensures_str ?_
    exact (ensures_token _).bind fun _ _ => ensures_pure trivial
  · rw [DomainCond.grammatical, Bool.and_eq_true, List.all_eq_true]
    exact ⟨by simpa using hcs.1, fun p hp => by simpa using (hcs.2 p hp).1⟩
  · exact (hcs.2 p hp).2

theorem bound_domainExpr : Ensures (RuleParse.Bound N) (DomainExpr.About N) domainExpr := by
  refine ensures_rule fun p hp => ?_
  refine (Ensures.list (.list_ne_nil (.alt ?_ bound_chain) (ensures_token _))
    (ensures_token _)).mono fun e he => DomainExpr.about_of he
  refine (ensures_token _).bind fun _ _ => hp.bind fun e he => ?_
  exact (ensures_token _).bind fun _ _ => ensures_pure ⟨he.1, he.2⟩

theorem bound_whereClause : Ensures (RuleParse.Bound N) (fun _ => True) whereClause := by
  refine (Ensures.opt (P := fun _ => True) ?_).mono fun _ _ => trivial
  refine (ensures_token _).bind fun _ _ => bound_domainExpr.bind fun e he => ?_
  refine ensures_effect fun r u r' hr h => ⟨trivial, ?_⟩
  cases h
  exact ⟨hr.has, he⟩

end DomainExprParser

/-! ## The rule -/

/-- The boolean expression of the rule, over the names of its conditions. -/
def RuleParse.condExpr (r : RuleParse) : BooleanExpr String :=
  BooleanCond.mapOr Prod.fst r.booleanExpr

theorem RuleParse.leaves_condExpr (r : RuleParse) :
    r.condExpr.leaves = r.booleanExpr.leaves.map (Prod.map Prod.fst id) :=
  BooleanCond.leavesOr_map Prod.fst r.booleanExpr

/-- Whatever the text, a rule that is parsed has an expression of the grammar over conditions that
are found, each registered once, and a clause of the grammar about the conditions of the
expression. -/
theorem parse_grammatical {D : DoubleParser} {condMap : List String} {text : String}
    {r : RuleParse} (h : parseConditionExpr D condMap text {} = .ok true r) :
    r.condExpr.grammatical = true ∧ DomainExpr.grammatical r.domainExpr = true ∧
      r.conditions = r.condExpr.registered ∧ (r.conditions.map Prod.fst).Nodup ∧
      (∀ x ∈ r.condExpr.leaves, x.1 ∈ condMap) ∧
      ∀ p ∈ r.domainExpr.args, p.1 ∈ r.condExpr.leaves.map Prod.fst := by
  obtain ⟨e, mid, r₁, u, rest, hbool, hwhere, hrest⟩ := parse_true_iff.1 h
  have hconds : r.conditions = r.condExpr.registered := by
    rw [(parse_notified h).1, BooleanExpr.registered, RuleParse.leaves_condExpr, List.foldl_map]
    rfl
  obtain ⟨hnodup, hmem⟩ := foldl_insertConditionPtr r.condExpr.leaves [] List.nodup_nil
  have hleaf : ∀ name, name ∈ r.conditions.map Prod.fst ↔
      name ∈ r.condExpr.leaves.map Prod.fst := by
    intro name
    rw [hconds]
    exact (hmem name).trans (or_iff_right List.not_mem_nil)
  have hnone : RuleParse.Found condMap {} := fun p hp => absurd hp List.not_mem_nil
  obtain ⟨hgrammar, hfound⟩ := (BooleanExprParser.found_booleanExpr D condMap).of_ok hnone hbool
  have hempty : r₁.domainExpr = [] :=
    ((BooleanExprParser.ensures_booleanExpr D condMap).of_ok rfl hbool).2
  have hbound : RuleParse.Bound (fun m => r₁.has m = true) { r₁ with booleanExpr := e } := by
    refine ⟨fun _ h => h, ?_⟩
    rw [hempty]
    exact ⟨rfl, fun _ h => nomatch h⟩
  obtain ⟨-, hr⟩ := DomainExprParser.bound_whereClause.of_ok hbound hwhere
  obtain ⟨-, d, rfl⟩ := whereClause_ok hwhere hrest hempty
  refine ⟨?_, hr.about.1, hconds, ?_, fun x hx => ?_, fun p hp => ?_⟩
  · rw [BooleanExpr.grammatical, RuleParse.condExpr, BooleanCond.isEmpty_mapOr,
      BooleanCond.grammaticalOr_map]
    exact hgrammar
  · rw [hconds]
    exact hnodup
  · obtain ⟨p, hp, hpx⟩ := List.mem_map.1 ((hleaf x.1).2 (List.mem_map_of_mem hx))
    rw [← hpx]
    exact hfound p hp
  · exact (hleaf p.1).1 (RuleParse.has_iff.1 (hr.about.2 p hp))

theorem parse_grammatical_listed : ∃ r,
    parseConditionExpr RealLit.doubleParser ["a", "b"] Sample.listed.print {} = .ok true r ∧
      r.condExpr.grammatical = true ∧
      ∀ p ∈ r.domainExpr.args, p.1 ∈ r.condExpr.leaves.map Prod.fst := by
  have htrue : returnsTrue (parseConditionExpr RealLit.doubleParser ["a", "b"]
      Sample.listed.print {}) = true := by decide +kernel
  cases hparse : parseConditionExpr RealLit.doubleParser ["a", "b"] Sample.listed.print {} with
  | error e r =>
    rw [hparse] at htrue
    cases htrue
  | ok b r =>
    rw [hparse] at htrue
    obtain rfl : b = true := htrue
    obtain ⟨hgrammar, -, -, -, -, hargs⟩ := parse_grammatical hparse
    exact ⟨r, rfl, hgrammar, hargs⟩

end MfExtensions
