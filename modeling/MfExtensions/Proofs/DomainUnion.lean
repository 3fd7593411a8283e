import Mathlib.Data.List.TakeWhile
import MfExtensions.Proofs.DomainSets

/-!
# The union of condition domains

`domain_union` stops at the first element that contains the new domain and erases those before it
of which neither coordinate contains the new one's (`domainUnion_eq`). A condition domain covered by
several is contained in one of them, so the union is right just where each erased element is
contained in one that stays (`unionMeant_iff`).
-/

namespace MfExtensions

theorem containsOp_iff {a b : ℤ} : containsOp a b = true ↔ idxDenotes b ⊆ idxDenotes a := by
  constructor
  · intro h v hv
    rw [mem_idxDenotes] at hv ⊢
    rw [containsOp, Bool.or_eq_true, Bool.or_eq_true, decide_eq_true_eq, decide_eq_true_eq,
      decide_eq_true_eq] at h
    unfold dAny dNil at *
    omega
  · intro h
    simp only [containsOp, Bool.or_eq_true, decide_eq_true_eq]
    by_cases hb : b = dNil
    · exact .inr hb
    by_cases hany : b = dAny
    · -- everything is contained in no index
      have h0 := h (mem_idxDenotes.2 (.inl hany) : (a + 1) ∈ idxDenotes b)
      rw [mem_idxDenotes] at h0
      omega
    · have hmem := h (mem_idxDenotes.2 (.inr ⟨rfl, hb⟩))
      rw [mem_idxDenotes] at hmem
      omega

namespace CondDomain

/-- Both coordinates of `d` contain those of `d'`. -/
def contains (d d' : CondDomain) : Bool := containsOp d.1 d'.1 && containsOp d.2 d'.2

/-- Neither coordinate of `d` contains that of `d'`. -/
def crosses (d d' : CondDomain) : Bool := !containsOp d.1 d'.1 && !containsOp d.2 d'.2

theorem contains_iff {d d' : CondDomain} (hd' : condDomainIsNull d' = false) :
    d.contains d' = true ↔ d'.denotes ⊆ d.denotes := by
  have hne := Set.prod_nonempty_iff.1 (denotes_nonempty.2 hd')
  rw [contains, Bool.and_eq_true, containsOp_iff, containsOp_iff, denotes, denotes,
    Set.prod_subset_prod_iff]
  simp [hne.1.ne_empty, hne.2.ne_empty]

theorem domainCompare_of_contains {d d' : CondDomain} (h : d.contains d' = true) :
    domainCompare d d' = .equal ∨ domainCompare d d' = .lContains := by
  rw [contains, Bool.and_eq_true] at h
  by_cases heq : d.1 = d'.1 ∧ d.2 = d'.2
  · exact .inl (if_pos heq)
  · right
    simp [domainCompare, heq, h.1, h.2]

theorem domainCompare_of_not_contains {d d' : CondDomain} (h : d.contains d' = false) :
    domainCompare d d' = if d.crosses d' then .rContains else .noCommon := by
  have hne : ¬(d.1 = d'.1 ∧ d.2 = d'.2) := by
    intro heq
    simp [contains, containsOp, heq.1, heq.2] at h
  rw [contains, Bool.and_eq_false_iff] at h
  simp only [domainCompare, if_neg hne]
  rcases h with h | h
  · by_cases h₂ : containsOp d.2 d'.2 = true <;> simp [crosses, h, h₂]
  · by_cases h₁ : containsOp d.1 d'.1 = true <;> simp [crosses, h, h₁]

/-- A condition domain within a union of others is within one of them. -/
theorem subset_of_subset_union {d : CondDomain} (hd : condDomainIsNull d = false)
    {ds : List CondDomain} (h : d.denotes ⊆ ⋃ x ∈ ds, x.denotes) :
    ∃ x ∈ ds, d.denotes ⊆ x.denotes :=
  Flat.prod_subset_of_covered (flat_idxDenotes d.1) (flat_idxDenotes d.2) (denotes_nonempty.2 hd)
    (I := {x | x ∈ ds}) ds.finite_toSet (fun x _ => flat_idxDenotes x.1)
    (fun x _ => flat_idxDenotes x.2) h

end CondDomain

/-- What a list of condition domains stands for together. -/
def unionDenotes (ds : List CondDomain) : Set (ℤ × ℤ) := ⋃ d ∈ ds, CondDomain.denotes d

/-- No element contains another. -/
def Antichain (ds : List CondDomain) : Prop :=
  ds.Pairwise fun x y => ¬CondDomain.denotes x ⊆ CondDomain.denotes y ∧
    ¬CondDomain.denotes y ⊆ CondDomain.denotes x

variable (newD : CondDomain) (ds : List CondDomain)

/-- The elements before the first that contains the new domain. -/
def scanned : List CondDomain := ds.takeWhile fun x => !x.contains newD

/-- The elements from the first that contains the new domain on. -/
def unscanned : List CondDomain := ds.dropWhile fun x => !x.contains newD

variable {newD} {ds}

variable (newD) (ds) in
theorem scanned_append_unscanned : scanned newD ds ++ unscanned newD ds = ds :=
  List.takeWhile_append_dropWhile

theorem not_contains_of_scanned {x : CondDomain} (h : x ∈ scanned newD ds) :
    x.contains newD = false := by
  have := List.mem_takeWhile_imp h
  simpa using this

/-- The first element that the scan does not pass contains the new domain. -/
theorem exists_contains_of_unscanned (h : unscanned newD ds ≠ []) :
    ∃ x ∈ unscanned newD ds, x.contains newD = true := by
  refine ⟨(unscanned newD ds).head h, List.head_mem h, ?_⟩
  have := List.head_dropWhile_not (fun x : CondDomain => !x.contains newD) h
  rwa [Bool.not_eq_false'] at this

/-! ## What `domain_union` returns -/

variable (newD) (ds) in
/-- The elements that the scan passes. -/
def passed : List CondDomain := (scanned newD ds).filter fun x => !x.crosses newD

variable (newD) (ds) in
/-- The elements that the scan passes and those it does not come to, or the new domain. -/
def united : List CondDomain :=
  passed newD ds ++ if unscanned newD ds = [] then [newD] else unscanned newD ds

variable (ds) in
theorem unionScan_append {pre : List CondDomain}
    (hpre : ∀ x ∈ pre, x.contains newD = false ∧ x.crosses newD = false) (i : ℕ) :
    unionScan newD (pre ++ ds) i = unionScan newD ds (i + pre.length) := by
  induction pre generalizing i with
  | nil => rfl
  | cons x pre ih =>
    obtain ⟨⟨hc, hx⟩, hpre⟩ := List.forall_mem_cons.1 hpre
    have hcmp := CondDomain.domainCompare_of_not_contains hc
    rw [hx, if_neg (by simp)] at hcmp
    have hlen : i + (x :: pre).length = i + 1 + pre.length := by
      rw [List.length_cons]
      omega
    rw [hlen, ← ih hpre, List.cons_append, unionScan, hcmp]

/-- Each erasure starts the scan again, and it passes what it has passed before. -/
theorem domainUnionFuel_append (hnew : condDomainIsNull newD = false) (pre : List CondDomain)
    (fuel : ℕ) (hpre : ∀ x ∈ pre, x.contains newD = false ∧ x.crosses newD = false)
    (hfuel : ds.length < fuel) :
    domainUnionFuel newD fuel (pre ++ ds) = some (pre ++ united newD ds) := by
  induction ds generalizing pre fuel with
  | nil =>
    obtain ⟨fuel, rfl⟩ := Nat.exists_eq_succ_of_ne_zero hfuel.ne'
    have hpassed : unionScan newD (pre ++ []) 0 = .passed := unionScan_append [] hpre 0
    rw [List.append_nil] at hpassed ⊢
    simp only [domainUnionFuel, hnew, Bool.false_eq_true, if_false, hpassed]
    rfl
  | cons d ds ih =>
    obtain ⟨fuel, rfl⟩ := Nat.exists_eq_succ_of_ne_zero (Nat.ne_of_gt (Nat.zero_lt_of_lt hfuel))
    have hscan := unionScan_append (d :: ds) hpre 0
    rw [zero_add] at hscan
    by_cases hc : d.contains newD = true
    · have hunited : united newD (d :: ds) = d :: ds := by
        simp [united, passed, scanned, unscanned, hc]
      have hfound : unionScan newD (pre ++ d :: ds) 0 = .found := by
        rw [hscan, unionScan]
        rcases CondDomain.domainCompare_of_contains hc with h | h <;> rw [h]
      simp only [domainUnionFuel, hnew, Bool.false_eq_true, if_false, hfound, hunited]
    · rw [Bool.not_eq_true] at hc
      have hcmp := CondDomain.domainCompare_of_not_contains hc
      have hscanned : scanned newD (d :: ds) = d :: scanned newD ds := by simp [scanned, hc]
      have hunscanned : unscanned newD (d :: ds) = unscanned newD ds := by simp [unscanned, hc]
      by_cases hx : d.crosses newD = true
      · have hunited : united newD (d :: ds) = united newD ds := by
          rw [united, passed, hscanned, hunscanned, List.filter_cons_of_neg (by simp [hx])]
          rfl
        have herase : unionScan newD (pre ++ d :: ds) 0 = .erase pre.length := by
          rw [hscan, unionScan, hcmp, if_pos hx]
        have hidx : (pre ++ d :: ds).eraseIdx pre.length = pre ++ ds := by
          rw [List.eraseIdx_append_of_length_le le_rfl]
          simp
        simp only [domainUnionFuel, hnew, Bool.false_eq_true, if_false, herase, hidx, hunited]
        exact ih pre fuel hpre (by simpa using hfuel)
      · rw [Bool.not_eq_true] at hx
        have hunited : united newD (d :: ds) = d :: united newD ds := by
          rw [united, passed, hscanned, hunscanned, List.filter_cons_of_pos (by simp [hx])]
          rfl
        have := ih (pre ++ [d]) (fuel + 1)
          (fun x h => (List.mem_append.1 h).elim (hpre x)
            fun h => by rw [List.mem_singleton.1 h]; exact ⟨hc, hx⟩)
          (by simp only [List.length_cons] at hfuel; omega)
        rw [hunited]
        simpa using this

theorem domainUnion_eq (hnew : condDomainIsNull newD = false) :
    domainUnion ds newD = some (united newD ds) := by
  rw [domainUnion]
  simpa using domainUnionFuel_append hnew [] _ (by simp) (Nat.lt_succ_self ds.length)

theorem domainUnion_null (hnew : condDomainIsNull newD = true) :
    domainUnion ds newD = some ds := by
  rw [domainUnion, domainUnionFuel, if_pos hnew]

/-! ## When nothing is lost -/

theorem mem_united {x : CondDomain} : x ∈ united newD ds ↔
    (x ∈ scanned newD ds ∧ x.crosses newD = false) ∨ x ∈ unscanned newD ds ∨
      (unscanned newD ds = [] ∧ x = newD) := by
  rw [united, List.mem_append, passed, List.mem_filter, Bool.not_eq_true']
  by_cases h : unscanned newD ds = []
  · simp [h]
  · simp [h]

theorem mem_scanned_or {x : CondDomain} : x ∈ ds ↔ x ∈ scanned newD ds ∨ x ∈ unscanned newD ds := by
  rw [← List.mem_append, scanned_append_unscanned]

theorem mem_unionDenotes {l : List CondDomain} {v : ℤ × ℤ} :
    v ∈ unionDenotes l ↔ ∃ x ∈ l, v ∈ x.denotes := by simp [unionDenotes]

theorem subset_unionDenotes_united (hnew : condDomainIsNull newD = false) :
    newD.denotes ⊆ unionDenotes (united newD ds) := by
  intro v hv
  rw [mem_unionDenotes]
  by_cases h : unscanned newD ds = []
  · exact ⟨newD, mem_united.2 (.inr (.inr ⟨h, rfl⟩)), hv⟩
  · obtain ⟨y, hy, hc⟩ := exists_contains_of_unscanned h
    exact ⟨y, mem_united.2 (.inr (.inl hy)), (CondDomain.contains_iff hnew).1 hc hv⟩

theorem unionDenotes_united_subset :
    unionDenotes (united newD ds) ⊆ unionDenotes ds ∪ newD.denotes := by
  intro v hv
  obtain ⟨x, hx, hvx⟩ := mem_unionDenotes.1 hv
  rcases mem_united.1 hx with hx | hx | ⟨-, hx⟩
  · exact .inl (mem_unionDenotes.2 ⟨x, mem_scanned_or.2 (.inl hx.1), hvx⟩)
  · exact .inl (mem_unionDenotes.2 ⟨x, mem_scanned_or.2 (.inr hx), hvx⟩)
  · exact .inr (hx ▸ hvx)

variable (newD) (ds) in
/-- Each element that the scan erases is contained in the new domain or in an element that stays. -/
def ErasedKept : Prop :=
  ∀ x ∈ scanned newD ds, x.crosses newD = true →
    x.denotes ⊆ newD.denotes ∨
      (∃ y ∈ scanned newD ds, y.crosses newD = false ∧ x.denotes ⊆ y.denotes) ∨
      ∃ y ∈ unscanned newD ds, x.denotes ⊆ y.denotes

theorem unionDenotes_united_iff (hnew : condDomainIsNull newD = false) :
    unionDenotes (united newD ds) = unionDenotes ds ∪ newD.denotes ↔ ErasedKept newD ds := by
  constructor
  · intro h x hx _
    by_cases hnull : condDomainIsNull x = true
    · left
      rw [CondDomain.denotes_eq_empty.2 hnull]
      exact Set.empty_subset _
    have hsub : x.denotes ⊆ ⋃ y ∈ united newD ds, y.denotes := by
      change x.denotes ⊆ unionDenotes (united newD ds)
      rw [h]
      exact fun v hv => .inl (mem_unionDenotes.2 ⟨x, mem_scanned_or.2 (.inl hx), hv⟩)
    obtain ⟨y, hy, hxy⟩ :=
      CondDomain.subset_of_subset_union (Bool.eq_false_of_not_eq_true hnull) hsub
    rcases mem_united.1 hy with hy | hy | ⟨-, rfl⟩
    · exact .inr (.inl ⟨y, hy.1, hy.2, hxy⟩)
    · exact .inr (.inr ⟨y, hy, hxy⟩)
    · exact .inl hxy
  · intro h
    refine Set.Subset.antisymm unionDenotes_united_subset
      (Set.union_subset (fun v hv => ?_) (subset_unionDenotes_united hnew))
    obtain ⟨x, hx, hv⟩ := mem_unionDenotes.1 hv
    rcases mem_scanned_or.1 hx with hx | hx
    · by_cases hc : x.crosses newD = true
      · rcases h x hx hc with h | ⟨y, hy, hyc, h⟩ | ⟨y, hy, h⟩
        · exact subset_unionDenotes_united hnew (h hv)
        · exact mem_unionDenotes.2 ⟨y, mem_united.2 (.inl ⟨hy, hyc⟩), h hv⟩
        · exact mem_unionDenotes.2 ⟨y, mem_united.2 (.inr (.inl hy)), h hv⟩
      · exact mem_unionDenotes.2
          ⟨x, mem_united.2 (.inl ⟨hx, Bool.eq_false_of_not_eq_true hc⟩), hv⟩
    · exact mem_unionDenotes.2 ⟨x, mem_united.2 (.inr (.inl hx)), hv⟩

/-! ## When no element contains another -/

theorem passed_append_sublist : (passed newD ds ++ unscanned newD ds).Sublist ds := by
  conv_rhs => rw [← scanned_append_unscanned newD ds]
  exact List.filter_sublist.append (List.Sublist.refl _)

variable (newD) (ds) in
/-- Unless an element contains the new domain, those that share a coordinate with it are not
contained in it. -/
def PassedApart : Prop :=
  (∀ y ∈ ds, y.contains newD = false) → ∀ x ∈ ds, x.crosses newD = false →
    ¬x.denotes ⊆ newD.denotes

theorem antichain_united_iff (hnew : condDomainIsNull newD = false) (hds : Antichain ds) :
    Antichain (united newD ds) ↔ PassedApart newD ds := by
  by_cases h : unscanned newD ds = []
  · have hscanned : scanned newD ds = ds := by
      have := scanned_append_unscanned newD ds
      rwa [h, List.append_nil] at this
    have hnc : ∀ y ∈ ds, y.contains newD = false := fun y hy =>
      not_contains_of_scanned (hscanned.symm ▸ hy)
    have hpassed : ∀ x, x ∈ passed newD ds ↔ x ∈ ds ∧ x.crosses newD = false := by
      intro x
      rw [passed, hscanned, List.mem_filter, Bool.not_eq_true']
    have hsub : Antichain (passed newD ds) :=
      hds.sublist ((List.sublist_append_left _ _).trans passed_append_sublist)
    rw [united, if_pos h, Antichain, List.pairwise_append]
    constructor
    · rintro ⟨-, -, hcross⟩ - x hx hc
      exact (hcross x ((hpassed x).2 ⟨hx, hc⟩) newD (List.mem_singleton_self newD)).1
    · intro hapart
      refine ⟨hsub, List.pairwise_singleton _ _, fun x hx y hy => ?_⟩
      obtain rfl := List.mem_singleton.1 hy
      obtain ⟨hxd, hc⟩ := (hpassed x).1 hx
      refine ⟨hapart hnc x hxd hc, fun hsub => ?_⟩
      simpa [hnc x hxd] using (CondDomain.contains_iff hnew).2 hsub
  · obtain ⟨y, hy, hc⟩ := exists_contains_of_unscanned h
    rw [united, if_neg h]
    refine iff_of_true (hds.sublist passed_append_sublist) fun hnc => ?_
    simpa [hc] using hnc y (mem_scanned_or.2 (.inr hy))

variable (newD) (ds) in
/-- `domain_union` returns a list that stands for what the old list and the new domain stand for,
and in which no element contains another if none did in the old. -/
def UnionMeant : Prop :=
  ∃ r, domainUnion ds newD = some r ∧ unionDenotes r = unionDenotes ds ∪ newD.denotes ∧
    (Antichain ds → Antichain r)

variable (newD) (ds) in
/-- `domain_union` is right just for a null domain, or where the elements it erases are contained
in others and, if no element contains another, those it passes are not contained in the new one. -/
theorem unionMeant_iff : UnionMeant newD ds ↔ condDomainIsNull newD = true ∨
    ErasedKept newD ds ∧ (Antichain ds → PassedApart newD ds) := by
  unfold UnionMeant
  by_cases hnew : condDomainIsNull newD = true
  · refine iff_of_true ⟨ds, domainUnion_null hnew, ?_, id⟩ (.inl hnew)
    rw [CondDomain.denotes_eq_empty.2 hnew, Set.union_empty]
  · rw [Bool.not_eq_true] at hnew
    simp only [domainUnion_eq hnew, Option.some.injEq, exists_eq_left', hnew, Bool.false_eq_true,
      false_or, unionDenotes_united_iff hnew]
    exact and_congr_right fun _ => forall_congr' fun hds => antichain_united_iff hnew hds

/-- The source 0 with the target 0 is lost when the source 1 with the target 1 comes. -/
theorem not_unionMeant_disjoint : ¬UnionMeant (1, 1) [(0, 0)] := by
  rintro ⟨r, hr, hden, -⟩
  have hres : domainUnion [(0, 0)] (1, 1) = some [(1, 1)] := by decide
  obtain rfl := Option.some.inj (hres.symm.trans hr)
  have hmem : ((0 : ℤ), (0 : ℤ)) ∈ unionDenotes [(1, 1)] := by
    rw [hden]
    refine .inl (mem_unionDenotes.2 ⟨(0, 0), List.mem_singleton_self _, ?_⟩)
    simp [CondDomain.denotes, mem_idxDenotes, dNil]
  obtain ⟨x, hx, hv⟩ := mem_unionDenotes.1 hmem
  obtain rfl := List.mem_singleton.1 hx
  simp [CondDomain.denotes, mem_idxDenotes, dAny] at hv

end MfExtensions
