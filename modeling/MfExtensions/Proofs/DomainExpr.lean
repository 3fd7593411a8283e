import MfExtensions.DomainExpr
import MfExtensions.Proofs.Domain
import MfExtensions.Proofs.RuleConfig

/-!
# The meaning of a `WHERE` clause

A chain names one string through all of its arguments (`Chain.Strict`). The evaluation of a chain
that ends in a literal assigns where the other intersects, so only the last mention of each of its
conditions counts (`Chain.Loose`). `evaluateOr_spec` says that the domains computed for an
expression are together the choices it admits with its chains read loosely: a tree of intersections
and unions over the chains, in which the empty list stands for everything only before the first
condition of an and-expression.
-/

namespace MfExtensions

variable {C : Type} (conds : C → Condition)

/-- The index chosen for an argument of a chain is that of `name`. -/
def Names (v : C → ℕ × ℕ) (name : String) (p : C × ArgT) : Prop :=
  ((conds p.1).hitmap.args p.2).find? name = some (argIdx (v p.1) p.2)

/-- Every argument of the chain names one string, the literal if there is one. -/
def Chain.Strict (v : C → ℕ × ℕ) (args : List (C × ArgT)) (str : String) : Prop :=
  ∃ name, (str ≠ "" → name = str) ∧ ∀ p ∈ args, Names conds v name p

/-- Every argument has the literal in its map, and the last of each condition names it. -/
def Chain.LastNames (v : C → ℕ × ℕ) (str : String) : List (C × ArgT) → Prop
  | [] => True
  | p :: rest =>
    ((conds p.1).hitmap.args p.2).find? str ≠ none ∧
      (p.1 ∈ rest.map Prod.fst ∨ Names conds v str p) ∧ LastNames v str rest

/-- What the evaluation of a chain requires. -/
def Chain.Loose (v : C → ℕ × ℕ) (args : List (C × ArgT)) (str : String) : Prop :=
  if str = "" then Chain.Strict conds v args str else Chain.LastNames conds v str args

namespace DomainCond

variable (chain : List (C × ArgT) → String → Prop)

mutual

/-- An expression holds when its chains are read as `chain` says. -/
def Holds : DomainCond C → Prop
  | .expr e => HoldsOr e
  | .chain as str => chain as str

def HoldsAnd : List (DomainCond C) → Prop
  | [] => True
  | b :: bs => Holds b ∧ HoldsAnd bs

def HoldsOr : List (List (DomainCond C)) → Prop
  | [] => False
  | a :: as => HoldsAnd a ∨ HoldsOr as

end

omit chain in
mutual

/-- The chains of an expression. -/
def chains : DomainCond C → List (List (C × ArgT) × String)
  | .expr e => chainsOr e
  | .chain as str => [(as, str)]

def chainsAnd : List (DomainCond C) → List (List (C × ArgT) × String)
  | [] => []
  | b :: bs => b.chains ++ chainsAnd bs

def chainsOr : List (List (DomainCond C)) → List (List (C × ArgT) × String)
  | [] => []
  | a :: as => chainsAnd a ++ chainsOr as

end

variable {chain} {chain' : List (C × ArgT) → String → Prop}

mutual

theorem Holds.mono : ∀ b : DomainCond C, (∀ p ∈ b.chains, chain p.1 p.2 → chain' p.1 p.2) →
    b.Holds chain → b.Holds chain'
  | .expr e, hc, h => HoldsOr.mono e hc h
  | .chain as str, hc, h => hc (as, str) (by simp [chains]) h

theorem HoldsAnd.mono : ∀ bs : List (DomainCond C),
    (∀ p ∈ chainsAnd bs, chain p.1 p.2 → chain' p.1 p.2) → HoldsAnd chain bs → HoldsAnd chain' bs
  | [], _, _ => trivial
  | b :: bs, hc, h => by
    simp only [chainsAnd, List.mem_append] at hc
    exact ⟨Holds.mono b (fun p hp => hc p (.inl hp)) h.1,
      HoldsAnd.mono bs (fun p hp => hc p (.inr hp)) h.2⟩

theorem HoldsOr.mono : ∀ e : List (List (DomainCond C)),
    (∀ p ∈ chainsOr e, chain p.1 p.2 → chain' p.1 p.2) → HoldsOr chain e → HoldsOr chain' e
  | [], _, h => h
  | a :: as, hc, h => by
    simp only [chainsOr, List.mem_append] at hc
    exact h.imp (HoldsAnd.mono a fun p hp => hc p (.inl hp))
      (HoldsOr.mono as fun p hp => hc p (.inr hp))

end

end DomainCond

theorem Chain.lastNames_of_names {v : C → ℕ × ℕ} {str : String} :
    ∀ {args : List (C × ArgT)}, (∀ p ∈ args, Names conds v str p) →
      Chain.LastNames conds v str args
  | [], _ => trivial
  | p :: rest, h => by
    have hp := h p List.mem_cons_self
    refine ⟨?_, .inr hp, lastNames_of_names fun q hq => h q (List.mem_cons_of_mem _ hq)⟩
    rw [hp]
    simp

theorem Chain.loose_of_strict {v : C → ℕ × ℕ} (args : List (C × ArgT)) (str : String)
    (h : Chain.Strict conds v args str) : Chain.Loose conds v args str := by
  unfold Loose
  split_ifs with hstr
  · exact h
  · obtain ⟨name, hname, hall⟩ := h
    obtain rfl := hname hstr
    exact lastNames_of_names conds hall

/-- Where each condition is named once, its only mention is its last. -/
theorem Chain.names_of_lastNames {v : C → ℕ × ℕ} {str : String} :
    ∀ {args : List (C × ArgT)}, (args.map Prod.fst).Nodup → Chain.LastNames conds v str args →
      ∀ p ∈ args, Names conds v str p
  | q :: rest, hnd, h, p, hp => by
    obtain ⟨hq, hnd'⟩ := List.nodup_cons.1 hnd
    rcases List.mem_cons.1 hp with rfl | hp
    · exact h.2.1.resolve_left hq
    · exact names_of_lastNames hnd' h.2.2 p hp

theorem Chain.strict_of_loose {v : C → ℕ × ℕ} {args : List (C × ArgT)} {str : String}
    (hnd : str ≠ "" → (args.map Prod.fst).Nodup) (h : Chain.Loose conds v args str) :
    Chain.Strict conds v args str := by
  unfold Loose at h
  split_ifs at h with hstr
  · exact h
  · exact ⟨str, fun _ => rfl, names_of_lastNames conds (hnd hstr) h⟩

namespace DomainCond

open Domain

variable [DecidableEq C] {order : List C}

/-- Some domain of the list covers the choice. -/
def InUnion (order : List C) (ds : Domains) (v : C → ℕ × ℕ) : Prop :=
  ∃ d ∈ ds, Domain.Contains order d v

@[simp] theorem inUnion_nil (v : C → ℕ × ℕ) : ¬InUnion order [] v := by simp [InUnion]

theorem inUnion_append (ds ds' : Domains) (v : C → ℕ × ℕ) :
    InUnion order (ds ++ ds') v ↔ InUnion order ds v ∨ InUnion order ds' v := by
  simp only [InUnion, List.mem_append, or_and_right, exists_or]

/-! ## Chains -/

omit [DecidableEq C] in
theorem names_iff {v : C → ℕ × ℕ} {name : String} {p : C × ArgT} {i : ℕ}
    (h : ((conds p.1).hitmap.args p.2).find? name = some i) :
    Names conds v name p ↔ Covers (condDomainCtor i p.2) (v p.1) := by
  rw [Names, h, covers_ctor, Option.some_inj, eq_comm]

/-- The entry of a condition set to the index of a name. -/
theorem covers_set_ctor {domain : Domain} (hlen : domain.length = order.length) {c : C}
    (hc : c ∈ order) {a : ArgT} {str : String} {i : ℕ}
    (hf : ((conds c).hitmap.args a).find? str = some i) (v : C → ℕ × ℕ) (c' : C) :
    Covers ((Domain.at (domain.set (order.idxOf c) (condDomainCtor i a))) (order.idxOf c')) (v c') ↔
      if c' = c then Names conds v str (c, a) else Covers (domain.at (order.idxOf c')) (v c') := by
  rw [at_set _ (hlen ▸ List.idxOf_lt_length_of_mem hc)]
  by_cases heq : c' = c
  · subst heq
    rw [if_pos rfl, if_pos rfl, names_iff conds hf]
  · rw [if_neg heq, if_neg fun h => heq ((List.idxOf_inj hc).1 h).symm]

omit [DecidableEq C] in
theorem not_names {v : C → ℕ × ℕ} {name : String} {p : C × ArgT}
    (h : ((conds p.1).hitmap.args p.2).find? name = none) : ¬Names conds v name p := by
  rw [Names, h]
  simp

theorem literalDomain_spec (str : String) :
    ∀ (args : List (C × ArgT)), (∀ p ∈ args, p.1 ∈ order) →
      ∀ {domain : Domain}, domain.Proper order.length →
      match literalDomain conds order str args domain with
      | none => ∀ v, ¬Chain.LastNames conds v str args
      | some d => d.Proper order.length ∧ ∀ v, d.Contains order v ↔
          (∀ c ∈ order, c ∉ args.map Prod.fst → Covers (domain.at (order.idxOf c)) (v c)) ∧
            Chain.LastNames conds v str args
  | [], _, domain, hd => by
    simp only [literalDomain, Chain.LastNames, List.map_nil, List.not_mem_nil, not_false_eq_true,
      forall_const, and_true]
    exact ⟨hd, fun v => Iff.rfl⟩
  | (c, a) :: rest, hmem, domain, hd => by
    have hc : c ∈ order := hmem _ List.mem_cons_self
    rcases hf : ((conds c).hitmap.args a).find? str with _ | i
    · simp only [literalDomain, Hitmap.findArg, hf, if_true]
      intro v h
      exact h.1 hf
    · have hi : (i : ℤ) ≠ dNil := by
        simp only [dNil]
        omega
      simp only [literalDomain, Hitmap.findArg, hf, hi, if_false]
      have ih := literalDomain_spec str rest (fun p hp => hmem p (List.mem_cons_of_mem _ hp))
        (hd.set (i := order.idxOf c) (condDomainCtor_not_null i a))
      generalize literalDomain conds order str rest _ = r at ih ⊢
      cases r with
      | none => exact fun v h => ih v h.2.2
      | some d =>
        refine ⟨ih.1, fun v => (ih.2 v).trans ?_⟩
        have hat := covers_set_ctor conds hd.length hc hf v
        simp only [Chain.LastNames, hf, List.map_cons, List.mem_cons, not_or]
        constructor
        · rintro ⟨h, hl⟩
          refine ⟨fun c' hc' hn => ?_, by simp, ?_, hl⟩
          · have := (hat c').1 (h c' hc' hn.2)
            rwa [if_neg hn.1] at this
          · by_cases hin : c ∈ rest.map Prod.fst
            · exact .inl hin
            · have := (hat c).1 (h c hc hin)
              rw [if_pos rfl] at this
              exact .inr this
        · rintro ⟨h, -, hlast, hl⟩
          refine ⟨fun c' hc' hn => (hat c').2 ?_, hl⟩
          by_cases heq : c' = c
          · subst heq
            rw [if_pos rfl]
            exact hlast.resolve_left hn
          · rw [if_neg heq]
            exact h c' hc' ⟨heq, hn⟩

theorem chainDomain_spec (name : String) :
    ∀ (args : List (C × ArgT)), (∀ p ∈ args, p.1 ∈ order) →
      ∀ {domain : Domain}, domain.Proper order.length →
      match chainDomain conds order name args domain with
      | none => ∀ v, domain.Contains order v → ¬∀ p ∈ args, Names conds v name p
      | some d => d.Proper order.length ∧ ∀ v, d.Contains order v ↔
          domain.Contains order v ∧ ∀ p ∈ args, Names conds v name p
  | [], _, domain, hd => by
    simp only [chainDomain, List.not_mem_nil, false_implies, implies_true, and_true]
    exact hd
  | (c, a) :: rest, hmem, domain, hd => by
    have hc : c ∈ order := hmem _ List.mem_cons_self
    rcases hf : ((conds c).hitmap.args a).find? name with _ | i
    · simp only [chainDomain, Hitmap.findArg, hf, if_true]
      exact fun v _ h => not_names conds hf (h _ List.mem_cons_self)
    · have hi : (i : ℤ) ≠ dNil := by
        simp only [dNil]
        omega
      simp only [chainDomain, Hitmap.findArg, hf, hi, if_false]
      split_ifs with hnull
      · intro v hv h
        refine not_covers_of_null hnull (v c) ((covers_intersect _ _ _).2 ⟨hv c hc, ?_⟩)
        exact (names_iff conds hf).1 (h _ List.mem_cons_self)
      · have ih := chainDomain_spec name rest (fun p hp => hmem p (List.mem_cons_of_mem _ hp))
          (hd.set (i := order.idxOf c) (by simpa using hnull))
        generalize chainDomain conds order name rest _ = r at ih ⊢
        have hset := contains_set_intersect hd.length hc (condDomainCtor i a)
        cases r with
        | none =>
          intro v hv h
          refine ih v ((hset v).2 ⟨hv, ?_⟩) fun p hp => h p (List.mem_cons_of_mem _ hp)
          exact (names_iff conds hf).1 (h _ List.mem_cons_self)
        | some d =>
          refine ⟨ih.1, fun v => ?_⟩
          rw [ih.2 v, hset v, ← names_iff (p := (c, a)) conds hf, List.forall_mem_cons, and_assoc]

/-- Without a literal there is a domain for each name of the first argument. -/
theorem chainWorksheet_names {c : C} (hc : c ∈ order) (a : ArgT) (rest : List (C × ArgT)) :
    chainWorksheet conds order ((c, a) :: rest) "" =
      .ok (((conds c).hitmap.args a).entries.filterMap fun e =>
        chainDomain conds order e.1 rest
          ((domainCtorAny order.length).set (order.idxOf c) (condDomainCtor e.2 a))) := by
  have hat : (domainCtorAny order.length).at (order.idxOf c) = condDomainCtorAny :=
    at_ctorAny (List.idxOf_lt_length_of_mem hc)
  simp only [chainWorksheet, hat, intersect_any_ctor]
  rfl

theorem chainWorksheet_literal {str : String} (hstr : str ≠ "") {args : List (C × ArgT)}
    (hne : args ≠ []) : chainWorksheet conds order args str =
      .ok (literalDomain conds order str args (domainCtorAny order.length)).toList := by
  obtain ⟨p, rest, rfl⟩ := List.exists_cons_of_ne_nil hne
  have hs : str.isEmpty = false := by simpa [String.isEmpty_iff] using hstr
  simp only [chainWorksheet, hs, Bool.not_false, if_true]

theorem chainWorksheet_names_spec {c : C} {a : ArgT} {rest : List (C × ArgT)}
    (hmem : ∀ p ∈ (c, a) :: rest, p.1 ∈ order) :
    ∃ ds, chainWorksheet conds order ((c, a) :: rest) "" = .ok ds ∧
      (∀ d ∈ ds, d.Proper order.length) ∧
      ∀ v, InUnion order ds v ↔ Chain.Strict conds v ((c, a) :: rest) "" := by
  have hany : Domain.Proper order.length (domainCtorAny order.length) := proper_ctorAny _
  obtain ⟨hc, hrest⟩ := List.forall_mem_cons.1 hmem
  have hspec := fun e : String × ℕ => chainDomain_spec conds e.1 rest hrest
    (hany.set (i := order.idxOf c) (condDomainCtor_not_null e.2 a))
  refine ⟨_, chainWorksheet_names conds hc a rest, fun d hd => ?_, fun v => ?_⟩
  · obtain ⟨e, -, he⟩ := List.mem_filterMap.1 hd
    have := hspec e
    rw [he] at this
    exact this.1
  · have hfirst : ∀ e : String × ℕ, e ∈ ((conds c).hitmap.args a).entries →
        (Domain.Contains order ((domainCtorAny order.length).set (order.idxOf c)
          (condDomainCtor e.2 a)) v ↔ Names conds v e.1 (c, a)) := by
      intro e he
      rw [contains_set hany.length hc (condDomainCtor e.2 a) v,
        names_iff conds (OrdMap.find?_eq_some_iff.2 he)]
      refine and_iff_left fun c' hc' _ => ?_
      exact contains_ctorAny v c' hc'
    simp only [Chain.Strict, InUnion, List.mem_filterMap]
    constructor
    · rintro ⟨d, ⟨e, he, hd⟩, hv⟩
      have h := hspec e
      rw [hd] at h
      obtain ⟨h₁, h₂⟩ := (h.2 v).1 hv
      exact ⟨e.1, fun h => absurd rfl h,
        List.forall_mem_cons.2 ⟨(hfirst e he).1 h₁, h₂⟩⟩
    · rintro ⟨name, -, hall⟩
      obtain ⟨h₁, h₂⟩ := List.forall_mem_cons.1 hall
      have he := OrdMap.find?_eq_some_iff.1 h₁
      have h := hspec (name, argIdx (v c) a)
      generalize hd : chainDomain conds order name rest _ = r at h
      cases r with
      | none => exact absurd h₂ (h v ((hfirst _ he).2 h₁))
      | some d => exact ⟨d, ⟨_, he, hd⟩, (h.2 v).2 ⟨(hfirst _ he).2 h₁, h₂⟩⟩

/-- The worksheet of a chain is the choices that satisfy it read loosely. -/
theorem chainWorksheet_spec {args : List (C × ArgT)} (hne : args ≠ [])
    (hmem : ∀ p ∈ args, p.1 ∈ order) (str : String) :
    ∃ ds, chainWorksheet conds order args str = .ok ds ∧ (∀ d ∈ ds, d.Proper order.length) ∧
      ∀ v, InUnion order ds v ↔ Chain.Loose conds v args str := by
  by_cases hstr : str = ""
  · subst hstr
    obtain ⟨⟨c, a⟩, rest, rfl⟩ := List.exists_cons_of_ne_nil hne
    simp only [Chain.Loose, if_true]
    exact chainWorksheet_names_spec conds hmem
  · have h := literalDomain_spec conds str args hmem (proper_ctorAny _)
    refine ⟨_, chainWorksheet_literal conds hstr hne, ?_⟩
    generalize literalDomain conds order str args _ = r at h ⊢
    cases r with
    | none => simpa [Chain.Loose, hstr] using h
    | some d =>
      refine ⟨by simpa using h.1, fun v => ?_⟩
      simp only [Option.toList_some, InUnion, List.mem_singleton, exists_eq_left, Chain.Loose,
        hstr, if_false, h.2 v, and_iff_right_iff_imp]
      exact fun _ c hc _ => contains_ctorAny v c hc

/-! ## And-expressions -/

theorem intersectCycle_nil {worksheet : Domains} (hne : worksheet ≠ []) (ds : Domains) :
    intersectCycle worksheet ds [] = intersectCycle worksheet ds worksheet := by
  cases ds with
  | nil => rfl
  | cons d ds =>
    have hemp : worksheet.isEmpty = false := by simpa using hne
    simp only [intersectCycle, List.isEmpty_nil, if_true, hemp, Bool.false_eq_true, if_false]

/-- As many copies of `d` as there are domains left in the worksheet are intersected with each of
them. -/
theorem intersectCycle_replicate (worksheet : Domains) (d : Domain) {rest tail : Domains}
    (htail : intersectCycle worksheet rest [] = .ok tail) :
    ∀ wit : Domains, (∀ w ∈ wit, ∃ x, domainIntersect d w = .ok x) →
      ∃ ds, intersectCycle worksheet (List.replicate wit.length d ++ rest) wit = .ok (ds ++ tail) ∧
        ∀ x, x ∈ ds ↔ ∃ w ∈ wit, domainIntersect d w = .ok x
  | [], _ => ⟨[], htail, by simp⟩
  | w :: wit, h => by
    obtain ⟨y, hy⟩ := h w List.mem_cons_self
    obtain ⟨ds, hds, hall⟩ := intersectCycle_replicate worksheet d htail wit
      fun u hu => h u (List.mem_cons_of_mem _ hu)
    refine ⟨y :: ds, ?_, fun x => ?_⟩
    · simp only [List.length_cons, List.replicate_succ, List.cons_append, intersectCycle,
        List.isEmpty_cons, Bool.false_eq_true, if_false, hy, hds]
      rfl
    · rw [List.mem_cons, hall, List.exists_mem_cons_iff, hy, Except.ok.injEq, eq_comm]

/-- Every domain is intersected with every domain of the worksheet. -/
theorem intersectCycle_spec {worksheet : Domains} (hne : worksheet ≠ []) :
    ∀ domains : Domains,
      (∀ d ∈ domains, ∀ w ∈ worksheet, ∃ x, domainIntersect d w = .ok x) →
      ∃ ds, intersectCycle worksheet
          (domains.flatMap fun d => List.replicate worksheet.length d) [] = .ok ds ∧
        ∀ x, x ∈ ds ↔ ∃ d ∈ domains, ∃ w ∈ worksheet, domainIntersect d w = .ok x
  | [], _ => ⟨[], rfl, by simp⟩
  | d :: domains, h => by
    obtain ⟨tail, htail, hmem⟩ := intersectCycle_spec hne domains
      fun d' hd' => h d' (List.mem_cons_of_mem _ hd')
    obtain ⟨ds, hds, hall⟩ := intersectCycle_replicate worksheet d htail worksheet
      (h d List.mem_cons_self)
    refine ⟨ds ++ tail, ?_, fun x => ?_⟩
    · rw [intersectCycle_nil hne]
      exact hds
    · simp only [List.mem_append, hall, hmem, List.mem_cons, exists_eq_or_imp]

/-- Merging intersects what the two lists stand for, an empty list of domains standing for
everything. -/
theorem andMerge_spec (hnd : order.Nodup) (hord : order ≠ []) {domains worksheet : Domains}
    (hd : ∀ d ∈ domains, d.Proper order.length)
    (hw : ∀ w ∈ worksheet, w.Proper order.length) :
    ∃ ds, andMerge domains worksheet = .ok ds ∧ (∀ d ∈ ds, d.Proper order.length) ∧
      ∀ v, InUnion order ds v ↔
        (domains = [] ∨ InUnion order domains v) ∧ InUnion order worksheet v := by
  rcases eq_or_ne domains [] with rfl | hdne
  · exact ⟨worksheet, rfl, hw, fun v => by simp⟩
  rcases eq_or_ne worksheet [] with rfl | hwne
  · refine ⟨[], ?_, by simp, by simp⟩
    cases domains with
    | nil => rfl
    | cons d ds => rfl
  have hspec : ∀ d ∈ domains, ∀ w ∈ worksheet, _ := fun d hdm w hwm =>
    domainIntersect_spec hnd hord (hd d hdm) (hw w hwm)
  obtain ⟨xs, hxs, hmem⟩ := intersectCycle_spec hwne domains fun d hdm w hwm =>
    (hspec d hdm w hwm).imp fun _ h => h.1
  refine ⟨xs.filter (· ≠ domainCtorNull), ?_, fun x hx => ?_, fun v => ?_⟩
  · have hde : domains.isEmpty = false := by simpa using hdne
    have hwe : worksheet.isEmpty = false := by simpa using hwne
    rw [intersectCycle_nil hwne] at hxs
    simp only [andMerge, hde, hwe, Bool.false_eq_true, if_false, hxs]
    rfl
  · simp only [List.mem_filter, hmem, ne_eq, decide_eq_true_eq] at hx
    obtain ⟨⟨d, hdm, w, hwm, hdw⟩, hxn⟩ := hx
    obtain ⟨y, hy, h⟩ := hspec d hdm w hwm
    obtain rfl : x = y := by simpa [hdw] using hy
    exact (h.resolve_left fun h => hxn h.1).1
  · simp only [hdne, false_or, InUnion, List.mem_filter, hmem, ne_eq, decide_eq_true_eq]
    constructor
    · rintro ⟨x, ⟨⟨d, hdm, w, hwm, hdw⟩, hxn⟩, hv⟩
      obtain ⟨y, hy, h⟩ := hspec d hdm w hwm
      obtain rfl : x = y := by simpa [hdw] using hy
      obtain ⟨h₁, h₂⟩ := ((h.resolve_left fun h => hxn h.1).2 v).1 hv
      exact ⟨⟨d, hdm, h₁⟩, w, hwm, h₂⟩
    · rintro ⟨⟨d, hdm, h₁⟩, w, hwm, h₂⟩
      obtain ⟨y, hy, h⟩ := hspec d hdm w hwm
      rcases h with ⟨-, h⟩ | ⟨hp, h⟩
      · exact absurd ⟨h₁, h₂⟩ (h v)
      · refine ⟨y, ⟨⟨d, hdm, w, hwm, hy⟩, ?_⟩, (h v).2 ⟨h₁, h₂⟩⟩
        rintro rfl
        exact absurd (hp.not_null condDomainCtorNull (by simp [domainCtorNull])) (by decide)

/-! ## Expressions -/

theorem proper_nil (n : ℕ) : ∀ d ∈ ([] : Domains), Domain.Proper n d := by simp

mutual

theorem evaluate_spec (hnd : order.Nodup) (hord : order ≠ []) :
    ∀ b : DomainCond C, b.grammatical = true → (∀ p ∈ b.args, p.1 ∈ order) →
    ∀ {domains : Domains}, (∀ d ∈ domains, d.Proper order.length) →
    ∃ ds, b.evaluate conds order domains = .ok ds ∧ (∀ d ∈ ds, d.Proper order.length) ∧
      ∀ v, InUnion order ds v ↔
        (domains = [] ∨ InUnion order domains v) ∧ b.Holds (Chain.Loose conds v)
  | .expr e, hg, hm, domains, hd => by
    obtain ⟨ws, hws, hp, hu⟩ := evaluateOr_spec hnd hord e hg hm (proper_nil _)
    obtain ⟨ds, hds, hp', hu'⟩ := andMerge_spec hnd hord hd hp
    refine ⟨ds, by simp only [evaluate, hws]; exact hds, hp', fun v => ?_⟩
    rw [hu' v, hu v]
    simp [Holds]
  | .chain as str, hg, hm, domains, hd => by
    simp only [grammatical, Bool.and_eq_true, Bool.not_eq_true', List.isEmpty_eq_false_iff] at hg
    obtain ⟨ws, hws, hp, hu⟩ := chainWorksheet_spec conds hg.1 hm str
    obtain ⟨ds, hds, hp', hu'⟩ := andMerge_spec hnd hord hd hp
    refine ⟨ds, by simp only [evaluate, hws]; exact hds, hp', fun v => ?_⟩
    rw [hu' v, hu v, Holds]

theorem evaluateAnd_spec (hnd : order.Nodup) (hord : order ≠ []) :
    ∀ bs : List (DomainCond C), grammaticalAnd bs = true →
    (∀ p ∈ argsAnd bs, p.1 ∈ order) →
    ∀ {domains : Domains}, (∀ d ∈ domains, d.Proper order.length) → (bs = [] → domains ≠ []) →
    ∃ ds, evaluateAnd conds order bs domains = .ok ds ∧ (∀ d ∈ ds, d.Proper order.length) ∧
      ∀ v, InUnion order ds v ↔
        (domains = [] ∨ InUnion order domains v) ∧ HoldsAnd (Chain.Loose conds v) bs
  | [], _, _, domains, hd, hne => ⟨domains, rfl, hd, fun v => by simp [HoldsAnd, hne rfl]⟩
  | b :: bs, hg, hm, domains, hd, _ => by
    simp only [grammaticalAnd, Bool.and_eq_true] at hg
    simp only [argsAnd, List.mem_append] at hm
    obtain ⟨ds₁, hds₁, hp₁, hu₁⟩ := evaluate_spec hnd hord b hg.1 (fun p hp => hm p (.inl hp)) hd
    rcases eq_or_ne ds₁ [] with rfl | hne₁
    · refine ⟨[], by simp only [evaluateAnd, hds₁]; rfl, by simp, fun v => ?_⟩
      have := hu₁ v
      simp only [inUnion_nil, false_iff] at this
      simp only [inUnion_nil, HoldsAnd, false_iff]
      exact fun h => this ⟨h.1, h.2.1⟩
    · obtain ⟨ds, hds, hp, hu⟩ := evaluateAnd_spec hnd hord bs hg.2 (fun p hp => hm p (.inr hp)) hp₁
        fun _ => hne₁
      have hemp : ds₁.isEmpty = false := by simpa using hne₁
      refine ⟨ds, ?_, hp, fun v => ?_⟩
      · simp only [evaluateAnd, hds₁]
        refine Eq.trans ?_ hds
        show (if ds₁.isEmpty then pure [] else evaluateAnd conds order bs ds₁) = _
        rw [hemp]
        rfl
      · rw [hu v, HoldsAnd]
        simp only [hne₁, false_or, hu₁ v, and_assoc]

theorem evaluateOr_spec (hnd : order.Nodup) (hord : order ≠ []) :
    ∀ e : List (List (DomainCond C)), grammaticalOr e = true →
    (∀ p ∈ argsOr e, p.1 ∈ order) →
    ∀ {domains : Domains}, (∀ d ∈ domains, d.Proper order.length) →
    ∃ ds, evaluateOr conds order e domains = .ok ds ∧ (∀ d ∈ ds, d.Proper order.length) ∧
      ∀ v, InUnion order ds v ↔ InUnion order domains v ∨ HoldsOr (Chain.Loose conds v) e
  | [], _, _, domains, hd => ⟨domains, rfl, hd, fun v => by simp [HoldsOr]⟩
  | a :: as, hg, hm, domains, hd => by
    simp only [grammaticalOr, Bool.and_eq_true, Bool.not_eq_true', List.isEmpty_eq_false_iff] at hg
    simp only [argsOr, List.mem_append] at hm
    obtain ⟨ds₁, hds₁, hp₁, hu₁⟩ := evaluateAnd_spec hnd hord a hg.1.2 (fun p hp => hm p (.inl hp))
      (proper_nil _) fun h => absurd h hg.1.1
    have hd₁ : ∀ d ∈ domains ++ ds₁, Domain.Proper order.length d := fun d h =>
      (List.mem_append.1 h).elim (hd d) (hp₁ d)
    obtain ⟨ds, hds, hp, hu⟩ := evaluateOr_spec hnd hord as hg.2 (fun p hp => hm p (.inr hp)) hd₁
    refine ⟨ds, by simp only [evaluateOr, hds₁]; exact hds, hp, fun v => ?_⟩
    rw [hu v, inUnion_append, hu₁ v, HoldsOr]
    simp [or_assoc]

end

end DomainCond

/-! ## The domains of a rule -/

/-- The pair of indices is one of the condition's index maps. -/
def Hitmap.HasPair (h : Hitmap) (v : ℕ × ℕ) : Prop :=
  v.1 ∈ h.srcIdx.entries.map Prod.snd ∧ v.2 ∈ h.tgtIdx.entries.map Prod.snd

namespace RuleConfig

open DomainCond

variable [DecidableEq C] (k : RuleConfig C)

/-- A choice of a pair of indices for each condition of the rule. -/
def Choice (v : C → ℕ × ℕ) : Prop := ∀ c ∈ k.conditions, (conds c).hitmap.HasPair (v c)

/-- Evaluating the `WHERE` clause returns domains of the size of the condition vector without a
null entry, and they are together the choices for which the clause is true. -/
def WhereMeant : Prop :=
  ∃ ds, k.domainExpr.evaluate conds k.conditions [] = .ok ds ∧
    (∀ d ∈ ds, Domain.Proper k.conditions.length d) ∧
    ∀ v, k.Choice conds v →
      (InUnion k.conditions ds v ↔ HoldsOr (Chain.Strict conds v) k.domainExpr)

theorem domainExpr_evaluate_spec :
    ∃ ds, k.domainExpr.evaluate conds k.conditions [] = .ok ds ∧
      (∀ d ∈ ds, Domain.Proper k.conditions.length d) ∧
      ∀ v, InUnion k.conditions ds v ↔ HoldsOr (Chain.Loose conds v) k.domainExpr := by
  obtain ⟨ds, hds, hp, hu⟩ := evaluateOr_spec conds k.conditions_nodup k.conditions_ne_nil
    k.domainExpr k.domainGrammatical (fun p hp => k.mem_conditions.2 (k.args_mem p hp))
    (proper_nil _)
  exact ⟨ds, hds, hp, fun v => by simp [hu v]⟩

/-- The clause is evaluated as meant if and only if the mentions of a condition before its last in
a chain with a literal make no difference. -/
theorem whereMeant_iff : k.WhereMeant conds ↔ ∀ v, k.Choice conds v →
    HoldsOr (Chain.Loose conds v) k.domainExpr → HoldsOr (Chain.Strict conds v) k.domainExpr := by
  obtain ⟨ds, hds, hp, hu⟩ := k.domainExpr_evaluate_spec conds
  constructor
  · rintro ⟨ds', hds', -, h⟩ v hv hl
    obtain rfl : ds = ds' := by simpa [hds] using hds'
    exact (h v hv).1 ((hu v).2 hl)
  · intro h
    refine ⟨ds, hds, hp, fun v hv => (hu v).trans ⟨h v hv, ?_⟩⟩
    exact HoldsOr.mono k.domainExpr fun p _ => Chain.loose_of_strict conds p.1 p.2

/-- A clause is evaluated as meant if no chain with a literal names a condition twice. -/
theorem whereMeant_of_nodup
    (h : ∀ p ∈ chainsOr k.domainExpr, p.2 ≠ "" → (p.1.map Prod.fst).Nodup) :
    k.WhereMeant conds := by
  obtain ⟨ds, hds, hp, hu⟩ := k.domainExpr_evaluate_spec conds
  refine ⟨ds, hds, hp, fun v _ => (hu v).trans ⟨?_, ?_⟩⟩
  · exact HoldsOr.mono k.domainExpr fun p hp => Chain.strict_of_loose conds (h p hp)
  · exact HoldsOr.mono k.domainExpr fun p _ => Chain.loose_of_strict conds p.1 p.2

end RuleConfig

/-- One condition `c` and the clause `c.$s = c.$t = 'x'`. -/
def bothArgsRule : RuleConfig Unit :=
  .plain "r" [[.cond ()]] [[.chain [((), .source), ((), .target)] "x"]] "" [] (Eq.refl true)

/-- The condition has seen the sources `x` and `y` and the target `x`. -/
def bothArgsConds : Unit → Condition := fun _ =>
  { hitmap :=
      { srcIdx := (OrdMap.empty.insert "x" 0).insert "y" 1
        tgtIdx := OrdMap.empty.insert "x" 0 } }

/-- The choice of the source `y` is in the domain computed for `c.$s = c.$t = 'x'`. -/
theorem not_whereMeant_bothArgs : ¬bothArgsRule.WhereMeant bothArgsConds := by
  rintro ⟨ds, hds, -, hu⟩
  have hev : bothArgsRule.domainExpr.evaluate bothArgsConds bothArgsRule.conditions [] =
      .ok [[(dAny, 0)]] := by rfl
  obtain rfl : [[(dAny, 0)]] = ds := by simpa [hev] using hds
  have hchoice : bothArgsRule.Choice bothArgsConds fun _ => (1, 0) := by
    unfold RuleConfig.Choice Hitmap.HasPair
    decide +kernel
  have h := (hu (fun _ => (1, 0)) hchoice).1
    ⟨_, List.mem_singleton_self _, fun _ _ => ⟨.inl rfl, .inr rfl⟩⟩
  simp only [bothArgsRule, RuleConfig.plain, DomainCond.HoldsOr, DomainCond.HoldsAnd,
    DomainCond.Holds, and_true, or_false] at h
  obtain ⟨name, hname, hall⟩ := h
  have hs := hall ((), .source) (by simp)
  rw [hname (by decide)] at hs
  revert hs
  unfold Names
  decide +kernel

end MfExtensions
