import MfExtensions.DomainOps
import MfExtensions.Lib.Flat
import MfExtensions.Proofs.Domain

/-!
# The sets domains stand for

A domain stands for the assignments of a pair of indices to each of its entries. The null domain is
the canonical domain of the empty set (`Domain.Canonical`), and canonical domains that stand for the
same set are the same (`Domain.eq_of_denotes_eq`), so the laws of intersection are those of sets.
-/

namespace MfExtensions

/-- The indices that an index, `D_ANY` or `D_NIL` stands for. -/
def idxDenotes (i : ℤ) : Set ℤ := if i = dAny then Set.univ else if i = dNil then ∅ else {i}

def CondDomain.denotes (d : CondDomain) : Set (ℤ × ℤ) := idxDenotes d.1 ×ˢ idxDenotes d.2

/-- A domain without entries is null, as `domain_is_null` has it. -/
def Domain.denotes (d : Domain) : Set (List (ℤ × ℤ)) :=
  {v | d ≠ [] ∧ List.Forall₂ (fun p x => p ∈ CondDomain.denotes x) v d}

def Domains.denotes (ds : Domains) : Set (List (ℤ × ℤ)) := ⋃ d ∈ ds, Domain.denotes d

/-- Null in its one form, or without a null entry. -/
def Domain.Canonical (d : Domain) : Prop := d = domainCtorNull ∨ domainIsNull d = false

theorem flat_idxDenotes (i : ℤ) : Flat (idxDenotes i) := by
  unfold idxDenotes
  split_ifs
  · exact Flat.univ
  · exact Flat.empty
  · exact Flat.singleton i

theorem idxDenotes_nonempty {i : ℤ} : (idxDenotes i).Nonempty ↔ i ≠ dNil := by
  unfold idxDenotes
  split_ifs with hany hnil
  · simp [hany, dAny, dNil]
  · simp [hnil]
  · simp [hnil]

theorem mem_idxDenotes {i v : ℤ} : v ∈ idxDenotes i ↔ i = dAny ∨ i = v ∧ i ≠ dNil := by
  unfold idxDenotes
  split_ifs with hany hnil
  · simp [hany]
  · simp [hnil, dAny, dNil]
  · simp [hany, hnil, eq_comm]

theorem idxDenotes_andOp (i j : ℤ) : idxDenotes (andOp i j) = idxDenotes i ∩ idxDenotes j := by
  ext v
  rw [Set.mem_inter_iff, mem_idxDenotes, mem_idxDenotes, mem_idxDenotes]
  simp only [andOp, dAny, dNil]
  split_ifs <;> omega

theorem idxDenotes_injective : Function.Injective idxDenotes := by
  intro i j h
  have huniv : ∀ k : ℤ, (Set.univ : Set ℤ) ≠ {k} := fun k hk =>
    absurd (Set.mem_singleton_iff.1 (hk ▸ Set.mem_univ (k + 1))) (by omega)
  have hempty : (Set.univ : Set ℤ) ≠ ∅ := Set.univ_nonempty.ne_empty
  unfold idxDenotes at h
  split_ifs at h with h₁ h₂ h₃ h₄ h₅ h₆
  · rw [h₁, h₂]
  · exact absurd h hempty
  · exact absurd h (huniv j)
  · exact absurd h.symm hempty
  · rw [h₄, h₆]
  · exact absurd h.symm (Set.singleton_ne_empty j)
  · exact absurd h.symm (huniv i)
  · exact absurd h (Set.singleton_ne_empty i)
  · exact Set.singleton_injective h

namespace CondDomain

theorem denotes_nonempty {d : CondDomain} : d.denotes.Nonempty ↔ condDomainIsNull d = false := by
  rw [denotes, Set.prod_nonempty_iff, idxDenotes_nonempty, idxDenotes_nonempty]
  simp [condDomainIsNull]

theorem denotes_eq_empty {d : CondDomain} : d.denotes = ∅ ↔ condDomainIsNull d = true := by
  rw [← Set.not_nonempty_iff_eq_empty, denotes_nonempty, Bool.not_eq_false]

theorem denotes_intersect (d₁ d₂ : CondDomain) :
    (condDomainIntersect d₁ d₂).denotes = d₁.denotes ∩ d₂.denotes := by
  have key : denotes (andOp d₁.1 d₂.1, andOp d₁.2 d₂.2) = d₁.denotes ∩ d₂.denotes := by
    simp only [denotes, idxDenotes_andOp, Set.prod_inter_prod]
  unfold condDomainIntersect
  simp only
  split_ifs with h
  · rw [← key, denotes_eq_empty.2 h, denotes_eq_empty.2 (by decide)]
  · exact key

/-- Over the indices there are, a domain denotes what it covers. -/
theorem covers_iff {d : CondDomain} {v : ℕ × ℕ} :
    Covers d v ↔ ((v.1 : ℤ), (v.2 : ℤ)) ∈ d.denotes := by
  have hidx : ∀ (i : ℤ) (n : ℕ), IdxCovers i n ↔ (n : ℤ) ∈ idxDenotes i := by
    intro i n
    simp only [IdxCovers, mem_idxDenotes, dAny, dNil]
    omega
  exact and_congr (hidx _ _) (hidx _ _)

theorem eq_of_denotes_eq {d₁ d₂ : CondDomain} (hne : condDomainIsNull d₁ = false)
    (h : d₁.denotes = d₂.denotes) : d₁ = d₂ := by
  have hprod := (Set.prod_eq_prod_iff_of_nonempty (denotes_nonempty.2 hne)).1 h
  exact Prod.ext (idxDenotes_injective hprod.1) (idxDenotes_injective hprod.2)

end CondDomain

namespace Domain

theorem domainIsNull_eq_false {d : Domain} :
    domainIsNull d = false ↔ d ≠ [] ∧ ∀ x ∈ d, condDomainIsNull x = false := by
  simp [domainIsNull]

theorem exists_forall₂ {d : Domain} (h : ∀ x ∈ d, condDomainIsNull x = false) :
    ∃ v, List.Forall₂ (fun p x => p ∈ CondDomain.denotes x) v d := by
  induction d with
  | nil => exact ⟨[], .nil⟩
  | cons x d ih =>
    obtain ⟨hx, hd⟩ := List.forall_mem_cons.1 h
    obtain ⟨p, hp⟩ := CondDomain.denotes_nonempty.2 hx
    obtain ⟨v, hv⟩ := ih hd
    exact ⟨p :: v, .cons hp hv⟩

theorem denotes_nonempty {d : Domain} : d.denotes.Nonempty ↔ domainIsNull d = false := by
  rw [domainIsNull_eq_false]
  constructor
  · rintro ⟨v, hd, hv⟩
    refine ⟨hd, fun x hx => ?_⟩
    obtain ⟨i, hi, rfl⟩ := List.getElem_of_mem hx
    have hvi := List.Forall₂.get hv (i := i) (hv.length_eq ▸ hi) hi
    exact CondDomain.denotes_nonempty.1 ⟨_, hvi⟩
  · rintro ⟨hd, h⟩
    obtain ⟨v, hv⟩ := exists_forall₂ h
    exact ⟨v, hd, hv⟩

theorem denotes_eq_empty {d : Domain} : d.denotes = ∅ ↔ domainIsNull d = true := by
  rw [← Set.not_nonempty_iff_eq_empty, denotes_nonempty, Bool.not_eq_false]

theorem denotes_ctorNull : Domain.denotes domainCtorNull = ∅ := denotes_eq_empty.2 (by decide)

/-- The choices of a non-empty product determine its factors. -/
theorem eq_of_forall₂_iff {d e : Domain} (hd : ∀ x ∈ d, condDomainIsNull x = false)
    (h : ∀ v, List.Forall₂ (fun p x => p ∈ CondDomain.denotes x) v d ↔
      List.Forall₂ (fun p x => p ∈ CondDomain.denotes x) v e) : d = e := by
  induction d generalizing e with
  | nil => exact (List.forall₂_nil_left_iff.1 ((h []).1 .nil)).symm
  | cons x d ih =>
    obtain ⟨hx, hd⟩ := List.forall_mem_cons.1 hd
    obtain ⟨p, hp⟩ := CondDomain.denotes_nonempty.2 hx
    obtain ⟨v, hv⟩ := exists_forall₂ hd
    obtain ⟨y, e, hpy, hve, rfl⟩ := List.forall₂_cons_left_iff.1 ((h (p :: v)).1 (.cons hp hv))
    simp only [List.forall₂_cons_right_iff] at h
    have hxy : x.denotes = y.denotes := by
      ext q
      constructor
      · intro hq
        obtain ⟨q', v', hq', -, heq⟩ := (h (q :: v)).1 ⟨q, v, hq, hv, rfl⟩
        rwa [(List.cons.inj heq).1]
      · intro hq
        obtain ⟨q', v', hq', -, heq⟩ := (h (q :: v)).2 ⟨q, v, hq, hve, rfl⟩
        rwa [(List.cons.inj heq).1]
    have hde : d = e := by
      refine ih hd fun w => ⟨fun hw => ?_, fun hw => ?_⟩
      · obtain ⟨p', w', -, hw', heq⟩ := (h (p :: w)).1 ⟨p, w, hp, hw, rfl⟩
        rwa [(List.cons.inj heq).2]
      · obtain ⟨p', w', -, hw', heq⟩ := (h (p :: w)).2 ⟨p, w, hpy, hw, rfl⟩
        rwa [(List.cons.inj heq).2]
    rw [CondDomain.eq_of_denotes_eq hx hxy, hde]

/-- Canonical domains that stand for the same set are the same. -/
theorem eq_of_denotes_eq {d e : Domain} (hd : d.Canonical) (he : e.Canonical)
    (h : d.denotes = e.denotes) : d = e := by
  rcases hd with rfl | hd
  · rcases he with rfl | he
    · rfl
    · exact absurd (h ▸ denotes_ctorNull) (denotes_nonempty.2 he).ne_empty
  · rcases he with rfl | he
    · exact absurd (h.trans denotes_ctorNull) (denotes_nonempty.2 hd).ne_empty
    · obtain ⟨hdne, hdn⟩ := domainIsNull_eq_false.1 hd
      obtain ⟨hene, -⟩ := domainIsNull_eq_false.1 he
      refine eq_of_forall₂_iff hdn fun v => ?_
      simpa [denotes, hdne, hene] using Set.ext_iff.1 h v

end Domain

end MfExtensions
