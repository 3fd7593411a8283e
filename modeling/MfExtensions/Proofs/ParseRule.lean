import MfExtensions.Proofs.ParseDomain
import MfExtensions.Proofs.ParseReal
import MfExtensions.Proofs.Print

/-!
# Reading a rule expression

A printed rule expression is read back and put in the rule just if none of its names begins with a
keyword, its functions are accepted and its `WHERE` clause is about its own conditions
(`parse_spelled_iff`).
-/

namespace MfExtensions

open Peg Peg.Parser Exec

variable {D : DoubleParser} {condMap : List String} {N : String → Prop}
  {be : BooleanExpr CondArg} {de : DomainExpr String}

/-- What the clause after `WHERE` makes of a rule. -/
theorem reads_whereClause {o : Option DomainOrExpr}
    (h : ∀ n ∈ o.elim [] DomainOrExpr.conds, DomainExprParser.Listed N n) :
    Reads (Filled N be []) whereClause (Followed [none])
      (o.elim [] fun d => .word "WHERE" :: d.tokens) fun _ r =>
        r.booleanExpr = be ∧ o.elim (r.domainExpr = []) fun d => d.Denotes r.domainExpr := by
  cases o with
  | none =>
    exact (reads_opt_none ((fails_lit rfl (by decide)).bind _)).mono
      fun _ r hr => ⟨hr.2.boolean, hr.2.domain⟩
  | some d =>
    have hset : ∀ e : DomainExpr String, Reads (fun r => d.Denotes e ∧ Filled N be [] r)
        (effect (RuleParse.setDomainExpr e)) (Followed [none]) []
        fun u r => u = () ∧ r.booleanExpr = be ∧ d.Denotes r.domainExpr :=
      fun e => reads_effect fun r hr =>
        ⟨(), { r with domainExpr := e }, rfl, rfl, hr.2.boolean, hr.1⟩
    have hread : Reads (Filled N be []) (do
        let e ← DomainExprParser.domainExpr
        effect (RuleParse.setDomainExpr e)) (Followed [none]) (d.tokens ++ [])
        fun u r => u = () ∧ r.booleanExpr = be ∧ d.Denotes r.domainExpr :=
      (DomainOrExpr.reads d h).bind hset fun cs rest hsp hF => by
        cases hsp
        exact hF.mono (by simp)
    rw [List.append_nil] at hread
    have hclause : Reads (Filled N be []) (do
        lit "WHERE"
        let e ← DomainExprParser.domainExpr
        effect (RuleParse.setDomainExpr e)) (Followed [none]) (.word "WHERE" :: d.tokens)
        fun u r => u = () ∧ r.booleanExpr = be ∧ d.Denotes r.domainExpr := .after_lit rfl hread
    exact hclause.opt_some.mono fun _ _ h => h.2

theorem ensures_whereClause :
    Ensures (Clause N be) (fun _ => True) whereClause := by
  refine (Ensures.opt (P := fun _ => True) ?_).mono fun _ _ => trivial
  refine (ensures_token _).bind fun _ _ => DomainExprParser.ensures_domainExpr.bind fun e he => ?_
  refine ensures_effect fun r u r' hr h => ⟨trivial, ?_⟩
  cases h
  exact ⟨hr.has, hr.boolean, he⟩

/-- The boolean expression at the front of a printed rule is read, and its conditions are then
those of the rule. -/
theorem run_booleanExpr {t : RuleExpr}
    (hn : ∀ n ∈ t.boolean.conds, BooleanExprParser.Known condMap n)
    (hf : ∀ f ∈ t.boolean.functions, f.Accepted D) {cs rest : List Char}
    (hcs : Spells t.tokens cs rest) (hrest : skip rest = []) :
    ∃ e mid r, (BooleanExprParser.booleanExpr D condMap).run cs {} = .ok e mid r ∧
      t.boolean.Denotes D e ∧ Filled (· ∈ t.boolean.conds.map Name.str) [] [] r ∧
      Spells (t.domain.elim [] fun d => .word "WHERE" :: d.tokens) mid rest := by
  obtain ⟨mid, hbool, hwhere⟩ := hcs.append
  have hempty : Filled (fun _ => False) [] [] {} := ⟨fun name => by simp [RuleParse.has], rfl, rfl⟩
  have hafter : BooleanExprParser.AfterOr mid := by
    cases hdomain : t.domain with
    | none =>
      rw [hdomain] at hwhere
      cases hwhere
      simp [BooleanExprParser.AfterOr, Followed, next, hrest]
    | some d =>
      rw [hdomain] at hwhere
      exact hwhere.followed rfl (by decide)
  obtain ⟨e, r, hrun, hdenotes, hr⟩ :=
    BooleanOrExpr.reads D t.boolean (fun _ => False) hn hf cs mid {} hempty hbool hafter
  exact ⟨e, mid, r, hrun, hdenotes, hr.of_iff fun m => by simp, hwhere⟩

/-- A text is a rule if a boolean expression is at its front, and the clause after it is all
else. -/
theorem parse_true_iff {text : String} {r r' : RuleParse} :
    parseConditionExpr D condMap text r = .ok true r' ↔ ∃ e mid r₁ u rest,
      (BooleanExprParser.booleanExpr D condMap).run text.toList r = .ok e mid r₁ ∧
      whereClause.run mid { r₁ with booleanExpr := e } = .ok u rest r' ∧ skip rest = [] := by
  have hrun : (conditionExpr D condMap).run text.toList r =
      ((BooleanExprParser.booleanExpr D condMap).run text.toList r).bind fun e mid r₁ =>
        whereClause.run mid { r₁ with booleanExpr := e } := rfl
  unfold parseConditionExpr
  rw [hrun]
  constructor
  · intro h
    split at h
    · next u rest r₂ heq =>
      obtain ⟨e, mid, r₁, hbool, hwhere⟩ := Outcome.bind_ok heq
      simp only [EStateM.Result.ok.injEq, List.isEmpty_iff] at h
      exact ⟨e, mid, r₁, u, rest, hbool, h.2 ▸ hwhere, h.1⟩
    · cases h
    · cases h
  · rintro ⟨e, mid, r₁, u, rest, hbool, hwhere, hrest⟩
    rw [hbool]
    simp only [Outcome.bind, hwhere, hrest, List.isEmpty_nil]

/-- A printed rule is read back as its tree just if no condition is named like a keyword begins, the
functions take their arguments and the conditions after `WHERE` are among those before. -/
theorem parse_spelled_iff {t : RuleExpr} {text : String}
    (hmap : ∀ n ∈ t.boolean.conds ++ t.domainConds, n.str ∈ condMap) (htext : t.Spelled text) :
    (∃ r, parseConditionExpr D condMap text {} = .ok true r ∧ t.Denotes D r) ↔
      (∀ n ∈ t.boolean.conds, Avoids ["AND", "OR"] n.str) ∧
      (∀ f ∈ t.boolean.functions, f.Accepted D) ∧
      ∀ n ∈ t.domainConds, Avoids ["AND", "OR", "ANY"] n.str ∧
        n.str ∈ t.boolean.conds.map Name.str := by
  obtain ⟨rest, hcs, hrest⟩ := htext
  have hknown : (∀ n ∈ t.boolean.conds, Avoids ["AND", "OR"] n.str) →
      ∀ n ∈ t.boolean.conds, BooleanExprParser.Known condMap n :=
    fun h n hn => ⟨hmap n (List.mem_append_left _ hn), h n hn⟩
  constructor
  · rintro ⟨r, hparse, hdenotes, hdomain⟩
    obtain ⟨e, mid, r₁, u, rest', hrun, hwhere, -⟩ := parse_true_iff.1 hparse
    obtain ⟨hparsed, (hempty : r₁.domainExpr = [])⟩ :=
      (BooleanExprParser.ensures_booleanExpr D condMap).of_ok rfl hrun
    have hclause : Clause (fun m => r₁.has m = true) e { r₁ with booleanExpr := e } :=
      ⟨fun _ => Iff.rfl, rfl, by simp [hempty]⟩
    obtain ⟨-, hr⟩ := ensures_whereClause.of_ok hclause hwhere
    rw [hr.boolean] at hdenotes
    obtain ⟨havoid, haccept⟩ := BooleanOrExpr.of_parsed hdenotes hparsed
    refine ⟨havoid, haccept, ?_⟩
    -- the conditions of the rule are those of the boolean expression
    obtain ⟨e', mid', r₁', hrun', -, hfilled, -⟩ :=
      run_booleanExpr (hknown havoid) haccept hcs hrest
    obtain ⟨-, -, rfl⟩ := Outcome.ok.inj (hrun.symm.trans hrun')
    cases hd : t.domain with
    | none => simp [RuleExpr.domainConds, hd]
    | some d =>
      rw [hd] at hdomain
      intro n hn
      rw [RuleExpr.domainConds, hd] at hn
      obtain ⟨hname, hhas⟩ := DomainOrExpr.of_parsed hdomain hr.domain n hn
      exact ⟨hname, (hfilled.has n.str).1 hhas⟩
  · rintro ⟨havoid, haccept, hlisted⟩
    obtain ⟨e, mid, r, hrun, hdenotes, hr, hwhere⟩ :=
      run_booleanExpr (hknown havoid) haccept hcs hrest
    have hset : Filled (· ∈ t.boolean.conds.map Name.str) e [] { r with booleanExpr := e } :=
      ⟨hr.has, rfl, hr.domain⟩
    have hend : Followed [none] rest := by simp [Followed, next, hrest]
    obtain ⟨u, r', hrun', hboolean, hdomain⟩ :=
      reads_whereClause hlisted mid rest { r with booleanExpr := e } hset hwhere hend
    exact ⟨r', parse_true_iff.2 ⟨e, mid, r, u, rest, hrun, hrun', hrest⟩, hboolean ▸ hdenotes,
      hdomain⟩

/-- Where no name begins with a keyword, a printed rule is read back as its tree just if its
functions take their arguments and its `WHERE` clause is about its own conditions. -/
theorem parse_spelled {t : RuleExpr} {text : String}
    (hmap : ∀ n ∈ t.boolean.conds ++ t.domainConds, n.str ∈ condMap)
    (hboolean : ∀ n ∈ t.boolean.conds, Avoids ["AND", "OR"] n.str)
    (hdomain : ∀ n ∈ t.domainConds, Avoids ["AND", "OR", "ANY"] n.str)
    (htext : t.Spelled text) :
    (∃ r, parseConditionExpr D condMap text {} = .ok true r ∧ t.Denotes D r) ↔
      (∀ f ∈ t.boolean.functions, f.Accepted D) ∧
      ∀ n ∈ t.domainConds, n.str ∈ t.boolean.conds.map Name.str := by
  rw [parse_spelled_iff hmap htext]
  constructor
  · rintro ⟨-, haccept, hlisted⟩
    exact ⟨haccept, fun n hn => (hlisted n hn).2⟩
  · rintro ⟨haccept, hlisted⟩
    exact ⟨hboolean, haccept, fun n hn => ⟨hdomain n hn, hlisted n hn⟩⟩

namespace Sample

def a : Name := ⟨'a', [], rfl, rfl⟩

def b : Name := ⟨'b', [], rfl, rfl⟩

def count : Name := ⟨'c', ['o', 'u', 'n', 't'], rfl, rfl⟩

def order : Name := ⟨'o', ['r', 'd', 'e', 'r'], rfl, rfl⟩

def three : RealLit := ⟨none, (RealLit.digitOf '3', []), none, none⟩

/-- `count(a.$s) >= 3 && b WHERE a.$s = b.$t` -/
def listed : RuleExpr where
  boolean := .one (.and (.function ⟨count, a, some .source, [], some (.ge, .real three)⟩)
    (.one (.condition b)))
  domain := some (.one (.one (.chain (a, .source) [(b, .target)] .none)))

/-- `a WHERE b.$s = ANY` -/
def unlisted : RuleExpr where
  boolean := .one (.one (.condition a))
  domain := some (.one (.one (.chain (b, .source) [] .any)))

/-- `b(a)` -/
def unknown : RuleExpr := ⟨.one (.one (.function ⟨b, a, none, [], none⟩)), none⟩

/-- `count(a) < true` -/
def lessBool : RuleExpr :=
  ⟨.one (.one (.function ⟨count, a, none, [], some (.l, .bool true)⟩)), none⟩

/-- `order` -/
def keyword : RuleExpr := ⟨.one (.one (.condition order)), none⟩

end Sample

theorem parse_spelled_listed : ∃ r, parseConditionExpr RealLit.doubleParser ["a", "b"]
    Sample.listed.print {} = .ok true r ∧ Sample.listed.Denotes RealLit.doubleParser r := by
  refine (parse_spelled ?_ ?_ ?_ Sample.listed.spelled_print).2 ⟨?_, ?_⟩
  · decide
  · decide
  · decide
  · intro f hf
    obtain rfl := List.mem_singleton.1 hf
    exact ⟨⟨0, .count .none, .count, rfl, rfl⟩, fun op b h => nomatch h⟩
  · decide

/-- The parser returns true. -/
def returnsTrue : EStateM.Result Err RuleParse Bool → Bool
  | .ok b _ => b
  | .error _ _ => false

theorem not_ok_true {x : EStateM.Result Err RuleParse Bool} (h : returnsTrue x = false) :
    ¬∃ r, x = .ok true r := by
  rintro ⟨r, rfl⟩
  cases h

/-- What the parser refuses: conditions after `WHERE` only, unknown functions, booleans in order and
names that begin with a keyword. -/
theorem print_not_parsed :
    (¬∃ r, parseConditionExpr RealLit.doubleParser ["a", "b"] Sample.unlisted.print {} =
      .ok true r) ∧
    (¬∃ r, parseConditionExpr RealLit.doubleParser ["a"] Sample.unknown.print {} = .ok true r) ∧
    (¬∃ r, parseConditionExpr RealLit.doubleParser ["a"] Sample.lessBool.print {} = .ok true r) ∧
    ¬∃ r, parseConditionExpr RealLit.doubleParser ["order"] Sample.keyword.print {} =
      .ok true r := by
  refine ⟨not_ok_true ?_, not_ok_true ?_, not_ok_true ?_, not_ok_true ?_⟩
  · decide +kernel
  · decide +kernel
  · decide +kernel
  · decide +kernel

end MfExtensions
