import MfExtensions.Proofs.Condition
import MfExtensions.Proofs.DomainExpr

/-!
# The indices of a domain

The indices a `WHERE` clause puts in a domain are those of its conditions' maps
(`evaluateOr_bounded`): a chain starts from a domain that restricts nothing, sets entries to indices
it looks up, and intersecting entries makes no new index.
-/

namespace MfExtensions

/-- `D_NIL`, `D_ANY` or one of the first `n` indices. -/
def IdxBounded (n : ℕ) (i : ℤ) : Prop := dNil ≤ i ∧ i < n

/-- The entry is in the index maps of its condition. -/
def Bounded (h : Hitmap) (x : CondDomain) : Prop :=
  IdxBounded h.srcIdx.size x.1 ∧ IdxBounded h.tgtIdx.size x.2

theorem idxBounded_nil (n : ℕ) : IdxBounded n dNil := by
  simp only [IdxBounded, dNil]
  omega

theorem idxBounded_any (n : ℕ) : IdxBounded n dAny := by
  simp only [IdxBounded, dNil, dAny]
  omega

theorem IdxBounded.andOp {n : ℕ} {i j : ℤ} (hi : IdxBounded n i) (hj : IdxBounded n j) :
    IdxBounded n (andOp i j) := by
  unfold MfExtensions.andOp
  split_ifs
  · exact idxBounded_nil n
  · exact hi
  · exact hj
  · exact hi
  · exact idxBounded_nil n

variable {h : Hitmap}

theorem bounded_null : Bounded h condDomainCtorNull := ⟨idxBounded_nil _, idxBounded_nil _⟩

theorem bounded_any : Bounded h condDomainCtorAny := ⟨idxBounded_any _, idxBounded_any _⟩

theorem Bounded.intersect {x y : CondDomain} (hx : Bounded h x) (hy : Bounded h y) :
    Bounded h (condDomainIntersect x y) := by
  unfold condDomainIntersect
  simp only
  split_ifs
  · exact bounded_null
  · exact ⟨hx.1.andOp hy.1, hx.2.andOp hy.2⟩

theorem bounded_ctor (hw : h.WF) {name : String} {i : ℕ} {a : ArgT}
    (hi : (h.args a).find? name = some i) : Bounded h (condDomainCtor i a) := by
  have hmem := OrdMap.find?_eq_some_iff.1 hi
  unfold Hitmap.args at hmem
  unfold condDomainCtor
  split_ifs at hmem ⊢
  · have hlt := hw.src.lt _ hmem
    refine ⟨⟨?_, Int.ofNat_lt.2 hlt⟩, idxBounded_any _⟩
    simp only [dNil]
    omega
  · have hlt := hw.tgt.lt _ hmem
    refine ⟨idxBounded_any _, ⟨?_, Int.ofNat_lt.2 hlt⟩⟩
    simp only [dNil]
    omega

/-- `D_ANY` or an index below the size of the map. -/
def InMap (m : IdxMap) (i : ℤ) : Prop := i = dAny ∨ 0 ≤ i ∧ i < m.size

theorem Bounded.inMap {x : CondDomain} (hx : Bounded h x) (hn : condDomainIsNull x = false) :
    InMap h.srcIdx x.1 ∧ InMap h.tgtIdx x.2 := by
  simp only [condDomainIsNull, Bool.or_eq_false_iff, decide_eq_false_iff_not] at hn
  simp only [Bounded, IdxBounded] at hx
  simp only [InMap, dAny, dNil] at *
  omega

/-- An entry that is not null covers a pair of indices. -/
theorem Bounded.exists_covers {x : CondDomain} (hx : Bounded h x)
    (hn : condDomainIsNull x = false) : Covers x (x.1.toNat, x.2.toNat) := by
  simp only [condDomainIsNull, Bool.or_eq_false_iff, decide_eq_false_iff_not] at hn
  simp only [Bounded, IdxBounded] at hx
  simp only [Covers, IdxCovers, dAny, dNil] at *
  omega

variable {C : Type} [DecidableEq C] {conds : C → Condition} {order : List C}

/-- The entries of the domain are in the maps of their conditions. -/
def Domain.Bounded (conds : C → Condition) (order : List C) (d : Domain) : Prop :=
  ∀ c ∈ order, MfExtensions.Bounded (conds c).hitmap (d.at (order.idxOf c))

namespace Domain

theorem bounded_ctorAny : Domain.Bounded conds order (domainCtorAny order.length) := by
  intro c hc
  rw [at_ctorAny (List.idxOf_lt_length_of_mem hc)]
  exact bounded_any

theorem bounded_nullOf {n : ℕ} : Domain.Bounded conds order (domainCtorNullOf n) := by
  intro c _
  have hat : (domainCtorNullOf n).at (order.idxOf c) = condDomainCtorNull := by
    simp only [Domain.at, List.getD, domainCtorNullOf, List.getElem?_replicate]
    split_ifs <;> rfl
  rw [hat]
  exact bounded_null

theorem bounded_ctorNull : Domain.Bounded conds order domainCtorNull :=
  bounded_nullOf (n := 1)

theorem Bounded.set {d : Domain} (hd : d.Bounded conds order) {c : C} {x : CondDomain}
    (hx : MfExtensions.Bounded (conds c).hitmap x) :
    Domain.Bounded conds order (d.set (order.idxOf c) x) := by
  intro c' hc'
  rcases lt_or_ge (order.idxOf c) d.length with hlt | hge
  · rw [at_set x hlt]
    split_ifs with heq
    · rw [(List.idxOf_inj hc').1 heq.symm]
      exact hx
    · exact hd c' hc'
  · rw [List.set_eq_of_length_le hge]
    exact hd c' hc'

theorem Bounded.exists_contains {d : Domain} (hd : d.Bounded conds order)
    (hp : d.Proper order.length) : ∃ v, d.Contains order v :=
  ⟨fun c => ((d.at (order.idxOf c)).1.toNat, (d.at (order.idxOf c)).2.toNat), fun c hc =>
    (hd c hc).exists_covers (hp.at_not_null (List.idxOf_lt_length_of_mem hc))⟩

theorem Bounded.domainIntersect {d₁ d₂ d : Domain} (h₁ : d₁.Bounded conds order)
    (h₂ : d₂.Bounded conds order) (h : domainIntersect d₁ d₂ = .ok d) :
    d.Bounded conds order := by
  unfold MfExtensions.domainIntersect at h
  split_ifs at h with hnull hlen
  · rw [← Except.ok.inj h]
    exact bounded_ctorNull
  · simp only [Except.ok.injEq] at h
    rw [not_not] at hlen
    split_ifs at h
    · rw [← h]
      exact bounded_ctorNull
    · intro c hc
      rw [← h]
      rcases lt_or_ge (order.idxOf c) d₁.length with hi | hi
      · rw [at_eq_getElem (by simpa [← hlen] using hi), List.getElem_zipWith,
          ← at_eq_getElem hi, ← at_eq_getElem (hlen ▸ hi)]
        exact (h₁ c hc).intersect (h₂ c hc)
      · have hnone : (List.zipWith condDomainIntersect d₁ d₂)[order.idxOf c]? = none := by
          rw [List.getElem?_eq_none_iff, List.length_zipWith, ← hlen, min_self]
          exact hi
        simp only [Domain.at, List.getD, hnone, Option.getD_none]
        exact bounded_null

end Domain

namespace DomainCond

open Domain Exec

theorem intersectCycle_bounded {worksheet : Domains}
    (hw : ∀ w ∈ worksheet, Domain.Bounded conds order w) :
    ∀ {domains wit ds : Domains}, (∀ d ∈ domains, Domain.Bounded conds order d) →
      (∀ w ∈ wit, Domain.Bounded conds order w) →
      intersectCycle worksheet domains wit = .ok ds → ∀ d ∈ ds, Domain.Bounded conds order d
  | [], wit, ds, _, _, h => by
    rw [← Except.ok.inj h]
    simp
  | d :: domains, wit, ds, hd, hwit, h => by
    obtain ⟨hd, hds⟩ := List.forall_mem_cons.1 hd
    have hstart : ∀ w ∈ if wit.isEmpty then worksheet else wit, Domain.Bounded conds order w := by
      split_ifs
      · exact hw
      · exact hwit
    unfold intersectCycle at h
    generalize (if wit.isEmpty then worksheet else wit) = ws at h hstart
    cases ws with
    | nil =>
      rw [← Except.ok.inj h]
      exact List.forall_mem_cons.2 ⟨hd, hds⟩
    | cons w ws =>
      obtain ⟨hw', hws⟩ := List.forall_mem_cons.1 hstart
      simp only at h
      obtain ⟨x, hx, h⟩ := except_bind_ok.1 h
      obtain ⟨xs, hxs, h⟩ := except_bind_ok.1 h
      rw [← Except.ok.inj h]
      exact List.forall_mem_cons.2 ⟨hd.domainIntersect hw' hx,
        intersectCycle_bounded hw hds hws hxs⟩

theorem andMerge_bounded {domains worksheet ds : Domains}
    (hd : ∀ d ∈ domains, Domain.Bounded conds order d)
    (hw : ∀ w ∈ worksheet, Domain.Bounded conds order w)
    (h : andMerge domains worksheet = .ok ds) : ∀ d ∈ ds, Domain.Bounded conds order d := by
  unfold andMerge at h
  split_ifs at h
  · rw [← Except.ok.inj h]
    exact hw
  · rw [← Except.ok.inj h]
    simp
  · obtain ⟨xs, hxs, h⟩ := except_bind_ok.1 h
    rw [← Except.ok.inj h]
    intro d hd'
    refine intersectCycle_bounded hw (fun d hd' => ?_) hw hxs d (List.mem_of_mem_filter hd')
    obtain ⟨d', hm, hr⟩ := List.mem_flatMap.1 hd'
    rw [List.eq_of_mem_replicate hr]
    exact hd d' hm

section WF

variable (hw : ∀ c, (conds c).hitmap.WF)

include hw

theorem literalDomain_bounded (str : String) : ∀ (args : List (C × ArgT)) {domain d : Domain},
    domain.Bounded conds order → literalDomain conds order str args domain = some d →
    d.Bounded conds order
  | [], domain, d, hd, h => by
    rw [← Option.some.inj h]
    exact hd
  | (c, a) :: rest, domain, d, hd, h => by
    rcases hf : ((conds c).hitmap.args a).find? str with _ | i
    · simp [literalDomain, Hitmap.findArg, hf] at h
    · simp only [literalDomain, Hitmap.findArg, hf] at h
      split_ifs at h
      exact literalDomain_bounded str rest (hd.set (bounded_ctor (hw c) hf)) h

theorem chainDomain_bounded (name : String) : ∀ (args : List (C × ArgT)) {domain d : Domain},
    (∀ p ∈ args, p.1 ∈ order) → domain.Bounded conds order →
    chainDomain conds order name args domain = some d → d.Bounded conds order
  | [], domain, d, _, hd, h => by
    rw [← Option.some.inj h]
    exact hd
  | (c, a) :: rest, domain, d, hm, hd, h => by
    obtain ⟨hc, hm⟩ := List.forall_mem_cons.1 hm
    rcases hf : ((conds c).hitmap.args a).find? name with _ | i
    · simp [chainDomain, Hitmap.findArg, hf] at h
    · simp only [chainDomain, Hitmap.findArg, hf] at h
      split_ifs at h
      exact chainDomain_bounded name rest hm
        (hd.set ((hd c hc).intersect (bounded_ctor (hw c) hf))) h

theorem chainWorksheet_bounded {args : List (C × ArgT)} (hm : ∀ p ∈ args, p.1 ∈ order)
    {str : String} {ds : Domains} (h : chainWorksheet conds order args str = .ok ds) :
    ∀ d ∈ ds, Domain.Bounded conds order d := by
  cases args with
  | nil => simp [chainWorksheet] at h
  | cons p rest =>
    obtain ⟨c, a⟩ := p
    obtain ⟨hc, hm'⟩ := List.forall_mem_cons.1 hm
    simp only [chainWorksheet] at h
    intro d hd
    split_ifs at h <;> rw [← Except.ok.inj h] at hd
    · rw [Option.mem_toList] at hd
      exact literalDomain_bounded hw str _ bounded_ctorAny hd
    · obtain ⟨e, he, hd⟩ := List.mem_filterMap.1 hd
      have hf := bounded_ctor (hw c) (a := a) (OrdMap.find?_eq_some_iff.2 he)
      exact chainDomain_bounded hw e.1 rest hm'
        (bounded_ctorAny.set ((bounded_ctorAny c hc).intersect hf)) hd

end WF

mutual

theorem evaluate_bounded (hw : ∀ c, (conds c).hitmap.WF) :
    ∀ (b : DomainCond C) {domains ds : Domains},
    (∀ p ∈ b.args, p.1 ∈ order) → (∀ d ∈ domains, Domain.Bounded conds order d) →
    b.evaluate conds order domains = .ok ds → ∀ d ∈ ds, Domain.Bounded conds order d
  | .expr e, domains, ds, hm, hd, h => by
    unfold evaluate at h
    obtain ⟨xs, hxs, h⟩ := except_bind_ok.1 h
    exact andMerge_bounded hd (evaluateOr_bounded hw e hm (by simp) hxs) h
  | .chain as str, domains, ds, hm, hd, h => by
    unfold evaluate at h
    obtain ⟨xs, hxs, h⟩ := except_bind_ok.1 h
    exact andMerge_bounded hd (chainWorksheet_bounded hw hm hxs) h

theorem evaluateAnd_bounded (hw : ∀ c, (conds c).hitmap.WF) :
    ∀ (bs : List (DomainCond C)) {domains ds : Domains},
    (∀ p ∈ argsAnd bs, p.1 ∈ order) → (∀ d ∈ domains, Domain.Bounded conds order d) →
    evaluateAnd conds order bs domains = .ok ds → ∀ d ∈ ds, Domain.Bounded conds order d
  | [], domains, ds, _, hd, h => by
    rw [← Except.ok.inj h]
    exact hd
  | b :: bs, domains, ds, hm, hd, h => by
    simp only [argsAnd, List.mem_append] at hm
    unfold evaluateAnd at h
    obtain ⟨xs, hxs, h⟩ := except_bind_ok.1 h
    split_ifs at h
    · rw [← Except.ok.inj h]
      simp
    · exact evaluateAnd_bounded hw bs (fun p hp => hm p (.inr hp))
        (evaluate_bounded hw b (fun p hp => hm p (.inl hp)) hd hxs) h

theorem evaluateOr_bounded (hw : ∀ c, (conds c).hitmap.WF) :
    ∀ (e : List (List (DomainCond C))) {domains ds : Domains},
    (∀ p ∈ argsOr e, p.1 ∈ order) → (∀ d ∈ domains, Domain.Bounded conds order d) →
    evaluateOr conds order e domains = .ok ds → ∀ d ∈ ds, Domain.Bounded conds order d
  | [], domains, ds, _, hd, h => by
    rw [← Except.ok.inj h]
    exact hd
  | a :: as, domains, ds, hm, hd, h => by
    simp only [argsOr, List.mem_append] at hm
    unfold evaluateOr at h
    obtain ⟨xs, hxs, h⟩ := except_bind_ok.1 h
    have hxs := evaluateAnd_bounded hw a (fun p hp => hm p (.inl hp)) (by simp) hxs
    refine evaluateOr_bounded hw as (fun p hp => hm p (.inr hp)) (fun d hd' => ?_) h
    exact (List.mem_append.1 hd').elim (hd d) (hxs d)

end

end DomainCond

theorem RuleConfig.evaluate_bounded (k : RuleConfig C) (hw : ∀ c, (conds c).hitmap.WF)
    {ds : Domains} (h : k.domainExpr.evaluate conds k.conditions [] = .ok ds) :
    ∀ d ∈ ds, Domain.Bounded conds k.conditions d :=
  DomainCond.evaluateOr_bounded hw k.domainExpr
    (fun p hp => k.mem_conditions.2 (k.args_mem p hp)) (by simp) h

end MfExtensions
