import Mathlib.Data.Set.Finite.Lattice
import Mathlib.Data.Set.Prod

/-!
# Flat sets

A set is flat if it has at most one element or is everything: what a wildcard pattern with an
index, a star or nothing stands for. Flat sets are closed under intersection. In an infinite type a
product of two flat sets that finitely many such products cover lies in one of them
(`Flat.prod_subset_of_covered`), since it has a point that no smaller product reaches.
-/

def Flat {α : Type*} (s : Set α) : Prop := s.Subsingleton ∨ s = Set.univ

namespace Flat

variable {α β ι : Type*} {s : Set α} {t : Set β}

theorem empty : Flat (∅ : Set α) := .inl Set.subsingleton_empty

theorem univ : Flat (Set.univ : Set α) := .inr rfl

theorem singleton (x : α) : Flat ({x} : Set α) := .inl Set.subsingleton_singleton

/-- A non-empty flat set has a point that is only in those flat sets of a finite family that
contain all of it. -/
theorem exists_generic [Infinite α] (hs : Flat s) (hne : s.Nonempty) {I : Set ι} (hI : I.Finite)
    {a : ι → Set α} (ha : ∀ i ∈ I, Flat (a i)) : ∃ x ∈ s, ∀ i ∈ I, x ∈ a i → s ⊆ a i := by
  rcases hs with hs | rfl
  · obtain ⟨x, hx⟩ := hne
    refine ⟨x, hx, fun i _ hxi y hy => ?_⟩
    rwa [hs hy hx]
  · -- the sets of the family with one element are finite together
    have hfin : (⋃ i ∈ {i ∈ I | (a i).Subsingleton}, a i).Finite :=
      (hI.subset (Set.sep_subset _ _)).biUnion fun i hi => hi.2.finite
    obtain ⟨x, hx⟩ := hfin.exists_notMem
    refine ⟨x, Set.mem_univ x, fun i hi hxi => ?_⟩
    rcases ha i hi with h | h
    · exact absurd (Set.mem_biUnion (show i ∈ {i ∈ I | (a i).Subsingleton} from ⟨hi, h⟩) hxi) hx
    · rw [h]

theorem prod_subset_of_covered [Infinite α] [Infinite β] (hs : Flat s) (ht : Flat t)
    (hne : (s ×ˢ t).Nonempty) {I : Set ι} (hI : I.Finite) {a : ι → Set α} {b : ι → Set β}
    (ha : ∀ i ∈ I, Flat (a i)) (hb : ∀ i ∈ I, Flat (b i))
    (h : s ×ˢ t ⊆ ⋃ i ∈ I, a i ×ˢ b i) : ∃ i ∈ I, s ×ˢ t ⊆ a i ×ˢ b i := by
  obtain ⟨hsne, htne⟩ := Set.prod_nonempty_iff.1 hne
  obtain ⟨x, hx, hxa⟩ := hs.exists_generic hsne hI ha
  obtain ⟨y, hy, hyb⟩ := ht.exists_generic htne hI hb
  obtain ⟨i, hi, hxi, hyi⟩ := Set.mem_iUnion₂.1 (h (Set.mk_mem_prod hx hy))
  exact ⟨i, hi, Set.prod_mono (hxa i hi hxi) (hyb i hi hyi)⟩

end Flat
