import Mathlib.Data.List.Basic
import Mathlib.Data.List.Nodup
import MfExtensions.Domain

/-!
# Domains as sets

A condition domain stands for the pairs of a source and a target index it covers, and the domain of
a rule for the choices of a pair for each of its conditions. Intersecting the domains intersects
what they stand for, and the null domain stands for nothing.
-/

namespace MfExtensions

/-- The index `v` is one of those that `i`, an index, `D_ANY` or `D_NIL`, stands for. -/
def IdxCovers (i : ℤ) (v : ℕ) : Prop := i = dAny ∨ i = v

def Covers (d : CondDomain) (v : ℕ × ℕ) : Prop := IdxCovers d.1 v.1 ∧ IdxCovers d.2 v.2

/-- The source or the target index of a pair. -/
def argIdx (v : ℕ × ℕ) (t : ArgT) : ℕ := if t = .source then v.1 else v.2

theorem not_idxCovers_nil (v : ℕ) : ¬IdxCovers dNil v := by
  simp only [IdxCovers, dNil, dAny]
  omega

theorem idxCovers_andOp (i j : ℤ) (v : ℕ) :
    IdxCovers (andOp i j) v ↔ IdxCovers i v ∧ IdxCovers j v := by
  simp only [andOp, IdxCovers, dNil, dAny]
  split_ifs <;> omega

theorem not_covers_of_null {d : CondDomain} (h : condDomainIsNull d = true) (v : ℕ × ℕ) :
    ¬Covers d v := by
  simp only [condDomainIsNull, Bool.or_eq_true, decide_eq_true_eq] at h
  rintro ⟨h₁, h₂⟩
  rcases h with h | h
  · rw [h] at h₁
    exact not_idxCovers_nil _ h₁
  · rw [h] at h₂
    exact not_idxCovers_nil _ h₂

theorem covers_any (v : ℕ × ℕ) : Covers condDomainCtorAny v := ⟨.inl rfl, .inl rfl⟩

theorem covers_ctor (i : ℕ) (t : ArgT) (v : ℕ × ℕ) :
    Covers (condDomainCtor i t) v ↔ argIdx v t = i := by
  unfold condDomainCtor argIdx
  split_ifs <;> simp only [Covers, IdxCovers, dAny, true_or, true_and, and_true] <;> omega

theorem covers_intersect (d₁ d₂ : CondDomain) (v : ℕ × ℕ) :
    Covers (condDomainIntersect d₁ d₂) v ↔ Covers d₁ v ∧ Covers d₂ v := by
  have key : Covers (andOp d₁.1 d₂.1, andOp d₁.2 d₂.2) v ↔ Covers d₁ v ∧ Covers d₂ v := by
    simp only [Covers, idxCovers_andOp]
    tauto
  unfold condDomainIntersect
  simp only
  split_ifs with h
  · refine iff_of_false (not_covers_of_null (by decide) v) fun hc => ?_
    exact not_covers_of_null h v (key.2 hc)
  · exact key

theorem condDomainCtor_not_null (i : ℕ) (t : ArgT) :
    condDomainIsNull (condDomainCtor i t) = false := by
  have hi : (i : ℤ) ≠ -2 := by omega
  unfold condDomainCtor
  split_ifs <;> simp [condDomainIsNull, dAny, dNil, hi]

theorem intersect_any_ctor (i : ℕ) (t : ArgT) :
    condDomainIntersect condDomainCtorAny (condDomainCtor i t) = condDomainCtor i t := by
  have hand : ∀ j : ℤ, j ≠ dNil → andOp dAny j = j := by
    intro j hj
    simp only [andOp, dAny, dNil] at hj ⊢
    split_ifs <;> omega
  have hn := condDomainCtor_not_null i t
  simp only [condDomainIsNull, Bool.or_eq_false_iff, decide_eq_false_iff_not] at hn
  simp only [condDomainIntersect, condDomainCtorAny, hand _ hn.1, hand _ hn.2]
  rw [if_neg (by rw [condDomainCtor_not_null]; simp)]

namespace Domain

/-- A domain of `n` conditions, none of them null. -/
structure Proper (n : ℕ) (d : Domain) : Prop where
  length : d.length = n
  not_null : ∀ x ∈ d, condDomainIsNull x = false

variable {C : Type} [DecidableEq C]

/-- The domain covers the pair chosen for each condition. -/
def Contains (order : List C) (d : Domain) (v : C → ℕ × ℕ) : Prop :=
  ∀ c ∈ order, Covers (d.at (order.idxOf c)) (v c)

theorem at_eq_getElem {d : Domain} {i : ℕ} (h : i < d.length) : d.at i = d[i] := by
  simp [Domain.at, List.getD, h]

theorem at_set {d : Domain} {i j : ℕ} (x : CondDomain) (h : i < d.length) :
    Domain.at (d.set i x) j = if i = j then x else d.at j := by
  simp only [Domain.at, List.getD, List.getElem?_set]
  split_ifs <;> simp

theorem at_ctorAny {n i : ℕ} (h : i < n) : (domainCtorAny n).at i = condDomainCtorAny := by
  simp [Domain.at, List.getD, domainCtorAny, h]

theorem Proper.at_not_null {n : ℕ} {d : Domain} (hd : d.Proper n) {i : ℕ} (h : i < n) :
    condDomainIsNull (d.at i) = false := by
  rw [at_eq_getElem (hd.length ▸ h)]
  exact hd.not_null _ (List.getElem_mem _)

theorem Proper.set {n i : ℕ} {d : Domain} (hd : d.Proper n) {x : CondDomain}
    (hx : condDomainIsNull x = false) : Proper n (d.set i x) := by
  refine ⟨by rw [List.length_set, hd.length], fun y hy => ?_⟩
  rcases List.mem_or_eq_of_mem_set hy with hy | rfl
  · exact hd.not_null y hy
  · exact hx

theorem Proper.domainIsNull {n : ℕ} (hn : 0 < n) {d : Domain} (hd : d.Proper n) :
    domainIsNull d = false := by
  simp only [MfExtensions.domainIsNull, Bool.or_eq_false_iff, List.isEmpty_eq_false_iff,
    List.any_eq_false, Bool.not_eq_true]
  exact ⟨List.ne_nil_of_length_pos (hd.length ▸ hn), hd.not_null⟩

theorem proper_ctorAny (n : ℕ) : Proper n (domainCtorAny n) := by
  refine ⟨by simp [domainCtorAny], fun x hx => ?_⟩
  rw [List.eq_of_mem_replicate hx]
  decide

variable {order : List C}

theorem contains_ctorAny (v : C → ℕ × ℕ) : Contains order (domainCtorAny order.length) v := by
  intro c hc
  rw [at_ctorAny (List.idxOf_lt_length_of_mem hc)]
  exact covers_any _

theorem contains_set {d : Domain} (hd : d.length = order.length) {c : C} (hc : c ∈ order)
    (x : CondDomain) (v : C → ℕ × ℕ) : Contains order (d.set (order.idxOf c) x) v ↔
      Covers x (v c) ∧ ∀ c' ∈ order, c' ≠ c → Covers (d.at (order.idxOf c')) (v c') := by
  have hlt : order.idxOf c < d.length := hd ▸ List.idxOf_lt_length_of_mem hc
  simp only [Contains, at_set x hlt]
  constructor
  · intro h
    refine ⟨by simpa using h c hc, fun c' hc' hne => ?_⟩
    have := h c' hc'
    rwa [if_neg fun heq => hne ((List.idxOf_inj hc).1 heq).symm] at this
  · rintro ⟨hx, h⟩ c' hc'
    rcases eq_or_ne c' c with rfl | hne
    · simpa using hx
    · rw [if_neg fun heq => hne ((List.idxOf_inj hc).1 heq).symm]
      exact h c' hc' hne

/-- Narrowing one entry of a domain by `x`. -/
theorem contains_set_intersect {d : Domain} (hd : d.length = order.length) {c : C}
    (hc : c ∈ order) (x : CondDomain) (v : C → ℕ × ℕ) :
    Contains order (d.set (order.idxOf c) (condDomainIntersect (d.at (order.idxOf c)) x)) v ↔
      d.Contains order v ∧ Covers x (v c) := by
  rw [contains_set hd hc, covers_intersect]
  constructor
  · rintro ⟨⟨h₁, h₂⟩, h⟩
    refine ⟨fun c' hc' => ?_, h₂⟩
    rcases eq_or_ne c' c with rfl | hne
    · exact h₁
    · exact h c' hc' hne
  · rintro ⟨h, hx⟩
    exact ⟨⟨h c hc, hx⟩, fun c' hc' _ => h c' hc'⟩

/-- Intersecting two domains gives the null domain if they have nothing in common, else the domain
of what they have in common. -/
theorem domainIntersect_spec (hnd : order.Nodup) (hne : order ≠ []) {d₁ d₂ : Domain}
    (h₁ : d₁.Proper order.length) (h₂ : d₂.Proper order.length) :
    ∃ d, domainIntersect d₁ d₂ = .ok d ∧
      ((d = domainCtorNull ∧ ∀ v, ¬(d₁.Contains order v ∧ d₂.Contains order v)) ∨
        (d.Proper order.length ∧
          ∀ v, d.Contains order v ↔ d₁.Contains order v ∧ d₂.Contains order v)) := by
  have hpos : 0 < order.length := List.length_pos_iff.2 hne
  have hlen : (List.zipWith condDomainIntersect d₁ d₂).length = order.length := by
    simp [h₁.length, h₂.length]
  have hat : ∀ i, i < order.length →
      Domain.at (List.zipWith condDomainIntersect d₁ d₂) i =
        condDomainIntersect (d₁.at i) (d₂.at i) := by
    intro i hi
    rw [at_eq_getElem (hlen ▸ hi), List.getElem_zipWith, at_eq_getElem (h₁.length ▸ hi),
      at_eq_getElem (h₂.length ▸ hi)]
  have hcontains : ∀ v, Contains order (List.zipWith condDomainIntersect d₁ d₂) v ↔
      d₁.Contains order v ∧ d₂.Contains order v := by
    intro v
    have hc : ∀ c ∈ order,
        Covers (Domain.at (List.zipWith condDomainIntersect d₁ d₂) (order.idxOf c)) (v c) ↔
          Covers (d₁.at (order.idxOf c)) (v c) ∧ Covers (d₂.at (order.idxOf c)) (v c) := by
      intro c hc
      rw [hat _ (List.idxOf_lt_length_of_mem hc), covers_intersect]
    constructor
    · intro h
      exact ⟨fun c hm => ((hc c hm).1 (h c hm)).1, fun c hm => ((hc c hm).1 (h c hm)).2⟩
    · rintro ⟨ha, hb⟩ c hm
      exact (hc c hm).2 ⟨ha c hm, hb c hm⟩
  have hok : domainIntersect d₁ d₂ =
      .ok (if (List.zipWith condDomainIntersect d₁ d₂).any condDomainIsNull then domainCtorNull
        else List.zipWith condDomainIntersect d₁ d₂) := by
    simp only [domainIntersect, h₁.domainIsNull hpos, h₂.domainIsNull hpos, h₁.length, h₂.length,
      Bool.or_self, Bool.false_eq_true, if_false, ne_eq, not_true_eq_false]
  refine ⟨_, hok, ?_⟩
  split_ifs with hnull
  · refine .inl ⟨rfl, fun v hv => ?_⟩
    obtain ⟨x, hx, hxn⟩ := List.any_eq_true.1 hnull
    obtain ⟨i, hi, rfl⟩ := List.getElem_of_mem hx
    have hi' : i < order.length := hlen ▸ hi
    have hc := (hcontains v).2 hv order[i] (List.getElem_mem hi')
    rw [List.Nodup.idxOf_getElem hnd, at_eq_getElem hi] at hc
    exact not_covers_of_null hxn _ hc
  · refine .inr ⟨⟨hlen, fun x hx => ?_⟩, hcontains⟩
    simpa using fun h => hnull (List.any_eq_true.2 ⟨x, hx, h⟩)

end Domain

end MfExtensions
