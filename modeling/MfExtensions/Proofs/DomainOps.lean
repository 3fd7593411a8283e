import MfExtensions.Proofs.DomainExpr
import MfExtensions.Proofs.DomainSets

/-!
# Intersections in place

The loops that update a domain entry by entry compute `domainIntersect`, `and_merge` with its
insertions computes `andMerge`, and each of them intersects the sets that the domains stand for.
-/

namespace MfExtensions

/-! ## `domain_intersect(d1, d2)` -/

theorem at_append (pre : Domain) (x : CondDomain) (d : Domain) :
    Domain.at (pre ++ x :: d) pre.length = x := by simp [Domain.at, List.getD]

/-- The loop from an index on leaves what stands before it. -/
theorem domainIntersectFrom_eq (pre pre' d e : Domain) (hpre : pre.length = pre'.length)
    (hlen : d.length = e.length) :
    domainIntersectFrom (pre' ++ e) d.length pre.length (pre ++ d) =
      .ok () (if (List.zipWith condDomainIntersect d e).any condDomainIsNull then domainCtorNull
        else pre ++ List.zipWith condDomainIntersect d e) := by
  induction d generalizing pre pre' e with
  | nil => simp [domainIntersectFrom]
  | cons x d ih =>
    obtain ⟨y, e, rfl⟩ := List.exists_cons_of_length_eq_add_one hlen.symm
    have hx : Domain.at (pre ++ x :: d) pre.length = x := at_append pre x d
    have hy : Domain.at (pre' ++ y :: e) pre.length = y := hpre ▸ at_append pre' y e
    have hset : ∀ z, (pre ++ x :: d).set pre.length z = pre ++ z :: d := by simp
    simp only [List.length_cons, domainIntersectFrom, Exec.bind_apply, Exec.modify_apply,
      Exec.get_apply, hx, hy, hset, at_append, List.zipWith_cons_cons, List.any_cons]
    by_cases hnull : condDomainIsNull (condDomainIntersect x y) = true
    · simp only [hnull, if_true, Bool.true_or]
      rfl
    · have := ih (pre ++ [condDomainIntersect x y]) (pre' ++ [y]) e (by simp [hpre])
        (by simpa using hlen)
      simp only [List.append_assoc, List.singleton_append, List.length_append, List.length_cons,
        List.length_nil, zero_add] at this
      simp only [hnull, Bool.false_eq_true, if_false, this, Bool.false_or]

theorem domainIntersectInPlace_eq (d₁ d₂ : Domain) :
    domainIntersectInPlace d₂ d₁ = match domainIntersect d₁ d₂ with
      | .ok d => .ok () d
      | .error e => .error e d₁ := by
  unfold domainIntersectInPlace domainIntersect
  rw [Exec.bind_apply, Exec.get_apply]
  by_cases hnull : (domainIsNull d₁ || domainIsNull d₂) = true
  · simp only [hnull, if_true]
    rfl
  · by_cases hlen : d₁.length = d₂.length
    · simp only [hnull, hlen, ne_eq, not_true_eq_false, if_false]
      have := domainIntersectFrom_eq [] [] d₁ d₂ rfl hlen
      simpa [hlen] using this
    · simp only [hnull, hlen, ne_eq, not_false_eq_true, if_true]
      rfl

theorem domainIntersectCopy_eq : domainIntersectCopy = domainIntersect := by
  funext d₁ d₂
  rw [domainIntersectCopy, domainIntersectInPlace_eq]
  cases domainIntersect d₁ d₂ <;> rfl

theorem domainIntersect_error {d₁ d₂ : Domain} :
    (∃ e, domainIntersect d₁ d₂ = .error e) ↔
      domainIsNull d₁ = false ∧ domainIsNull d₂ = false ∧ d₁.length ≠ d₂.length := by
  unfold domainIntersect
  split_ifs with hnull hlen
  · simp only [exists_false, false_iff, not_and, not_not]
    intro h₁ h₂
    simp [h₁, h₂] at hnull
  · simpa [hlen] using hnull
  · simp [not_not.1 hlen]

theorem forall₂_zipWith {d₁ d₂ : Domain} (hlen : d₁.length = d₂.length) (v : List (ℤ × ℤ)) :
    List.Forall₂ (fun p x => p ∈ CondDomain.denotes x) v
        (List.zipWith condDomainIntersect d₁ d₂) ↔
      List.Forall₂ (fun p x => p ∈ CondDomain.denotes x) v d₁ ∧
        List.Forall₂ (fun p x => p ∈ CondDomain.denotes x) v d₂ := by
  induction d₁ generalizing d₂ v with
  | nil =>
    obtain rfl := List.length_eq_zero_iff.1 hlen.symm
    simp
  | cons x d₁ ih =>
    obtain ⟨y, d₂, rfl⟩ := List.exists_cons_of_length_eq_add_one hlen.symm
    cases v with
    | nil => simp
    | cons p v =>
      rw [List.zipWith_cons_cons, List.forall₂_cons, List.forall₂_cons, List.forall₂_cons,
        ih (by simpa using hlen), CondDomain.denotes_intersect, Set.mem_inter_iff]
      tauto

theorem denotes_zipWith {d₁ d₂ : Domain} (hlen : d₁.length = d₂.length) :
    Domain.denotes (List.zipWith condDomainIntersect d₁ d₂) = d₁.denotes ∩ d₂.denotes := by
  ext v
  have hne : List.zipWith condDomainIntersect d₁ d₂ ≠ [] ↔ d₁ ≠ [] ∧ d₂ ≠ [] := by
    simp [List.zipWith_eq_nil_iff, not_or]
  simp only [Domain.denotes, Set.mem_ofPred_eq, Set.mem_inter_iff, hne, forall₂_zipWith hlen]
  tauto

theorem domainIntersect_denotes {d₁ d₂ d : Domain} (h : domainIntersect d₁ d₂ = .ok d) :
    d.denotes = d₁.denotes ∩ d₂.denotes := by
  unfold domainIntersect at h
  split_ifs at h with hnull hlen
  · obtain rfl := Except.ok.inj h
    rw [Domain.denotes_ctorNull]
    rcases Bool.or_eq_true_iff.1 hnull with h | h
    · rw [Domain.denotes_eq_empty.2 h, Set.empty_inter]
    · rw [Domain.denotes_eq_empty.2 h, Set.inter_empty]
  · obtain rfl := Except.ok.inj h
    rw [← denotes_zipWith (not_not.1 hlen)]
    split_ifs with hany
    · rw [Domain.denotes_ctorNull, eq_comm, Domain.denotes_eq_empty, domainIsNull, hany,
        Bool.or_true]
    · rfl

/-- The intersection is the null domain, or as long as the first and without a null entry. -/
theorem domainIntersect_canonical {d₁ d₂ d : Domain} (h : domainIntersect d₁ d₂ = .ok d) :
    d = domainCtorNull ∨ d.length = d₁.length ∧ domainIsNull d = false := by
  unfold domainIntersect at h
  split_ifs at h with hnull hlen
  · exact .inl (Except.ok.inj h).symm
  · obtain rfl := Except.ok.inj h
    split_ifs with hany
    · exact .inl rfl
    have hlen' : (List.zipWith condDomainIntersect d₁ d₂).length = d₁.length := by
      simp [not_not.1 hlen]
    refine .inr ⟨hlen', ?_⟩
    rw [Bool.or_eq_true_iff, not_or] at hnull
    have hne := (Domain.domainIsNull_eq_false.1 (Bool.eq_false_of_not_eq_true hnull.1)).1
    rw [domainIsNull, Bool.or_eq_false_iff]
    refine ⟨?_, Bool.eq_false_of_not_eq_true hany⟩
    rw [List.isEmpty_eq_false_iff, ← List.length_pos_iff, hlen']
    exact List.length_pos_iff.2 hne

theorem domainIntersect_ok {d₁ d₂ : Domain}
    (h : domainIsNull d₁ = true ∨ domainIsNull d₂ = true ∨ d₁.length = d₂.length) :
    ∃ d, domainIntersect d₁ d₂ = .ok d := by
  rcases hd : domainIntersect d₁ d₂ with e | d
  · obtain ⟨h₁, h₂, hlen⟩ := domainIntersect_error.1 ⟨e, hd⟩
    simp [h₁, h₂, hlen] at h
  · exact ⟨d, rfl⟩

/-- Intersections that denote the same set are the same. -/
theorem domainIntersect_eq_of_denotes {d₁ d₂ e₁ e₂ d e : Domain}
    (hd : domainIntersect d₁ d₂ = .ok d) (he : domainIntersect e₁ e₂ = .ok e)
    (h : d₁.denotes ∩ d₂.denotes = e₁.denotes ∩ e₂.denotes) : d = e := by
  refine Domain.eq_of_denotes_eq ((domainIntersect_canonical hd).imp_right And.right)
    ((domainIntersect_canonical he).imp_right And.right) ?_
  rw [domainIntersect_denotes hd, domainIntersect_denotes he, h]

theorem domainIntersect_comm {d₁ d₂ : Domain} (hlen : d₁.length = d₂.length) :
    domainIntersect d₁ d₂ = domainIntersect d₂ d₁ := by
  obtain ⟨d, hd⟩ := domainIntersect_ok (.inr (.inr hlen))
  obtain ⟨e, he⟩ := domainIntersect_ok (.inr (.inr hlen.symm))
  rw [hd, he, domainIntersect_eq_of_denotes hd he (Set.inter_comm _ _)]

theorem domainIntersect_self {d : Domain} (hd : domainIsNull d = false) :
    domainIntersect d d = .ok d := by
  obtain ⟨e, he⟩ := domainIntersect_ok (.inr (.inr (rfl : d.length = d.length)))
  have hcan := (domainIntersect_canonical he).imp_right And.right
  have hden : e.denotes = d.denotes := by rw [domainIntersect_denotes he, Set.inter_self]
  rw [he, Domain.eq_of_denotes_eq hcan (.inr hd) hden]

/-- A domain and an intersection of domains of its length can be intersected. -/
theorem domainIntersect_ok_of_ok {d₁ d₂ d d' : Domain} (h : domainIntersect d₁ d₂ = .ok d)
    (hlen : d₁.length = d'.length) :
    domainIsNull d = true ∨ domainIsNull d' = true ∨ d.length = d'.length := by
  rcases domainIntersect_canonical h with rfl | ⟨hl, -⟩
  · exact .inl (by decide)
  · exact .inr (.inr (hl.trans hlen))

theorem domainIntersect_assoc {d₁ d₂ d₃ : Domain} (h₂ : d₁.length = d₂.length)
    (h₃ : d₁.length = d₃.length) :
    (domainIntersect d₁ d₂ >>= fun d => domainIntersect d d₃) =
      domainIntersect d₂ d₃ >>= domainIntersect d₁ := by
  obtain ⟨a, ha⟩ := domainIntersect_ok (.inr (.inr h₂))
  obtain ⟨b, hb⟩ := domainIntersect_ok (.inr (.inr (h₂.symm.trans h₃)))
  obtain ⟨c, hc⟩ := domainIntersect_ok (domainIntersect_ok_of_ok ha h₃)
  obtain ⟨d, hd⟩ : ∃ d, domainIntersect d₁ b = .ok d :=
    domainIntersect_ok ((domainIntersect_ok_of_ok hb h₂.symm).elim (fun h => .inr (.inl h))
      fun h => h.elim .inl fun h => .inr (.inr h.symm))
  have hcd : c = d := by
    refine domainIntersect_eq_of_denotes hc hd ?_
    rw [domainIntersect_denotes ha, domainIntersect_denotes hb, Set.inter_assoc]
  rw [ha, hb]
  exact hc.trans (hcd ▸ hd.symm)

/-- `domain_intersect(d1, d2)` throws, and then leaves `d1` alone, just for two domains that are not
null and differ in size, and else makes `d1` the canonical domain of the intersection. On domains of
one size that are not null it is a semilattice operation. -/
theorem domainIntersectInPlace_spec (d₁ d₂ d₃ : Domain) :
    ((∃ e d, domainIntersectInPlace d₂ d₁ = .error e d) ↔
      domainIsNull d₁ = false ∧ domainIsNull d₂ = false ∧ d₁.length ≠ d₂.length) ∧
    (∀ e d, domainIntersectInPlace d₂ d₁ = .error e d → d = d₁) ∧
    (∀ d, domainIntersectInPlace d₂ d₁ = .ok () d →
      d.denotes = d₁.denotes ∩ d₂.denotes ∧
        (d = domainCtorNull ∨ d.length = d₁.length ∧ ∀ x ∈ d, x.1 ≠ dNil ∧ x.2 ≠ dNil)) ∧
    (domainIsNull d₁ = false → domainIsNull d₂ = false → domainIsNull d₃ = false →
      d₁.length = d₂.length → d₁.length = d₃.length →
      domainIntersectCopy d₁ d₂ = domainIntersectCopy d₂ d₁ ∧
        (domainIntersectCopy d₁ d₂ >>= fun d => domainIntersectCopy d d₃) =
          domainIntersectCopy d₂ d₃ >>= domainIntersectCopy d₁ ∧
        domainIntersectCopy d₁ d₁ = .ok d₁) := by
  refine ⟨?_, fun e d h => ?_, fun d h => ?_, fun h₁ _ _ hlen hlen' => ?_⟩
  · rw [← domainIntersect_error, domainIntersectInPlace_eq]
    cases domainIntersect d₁ d₂ <;> simp
  · rw [domainIntersectInPlace_eq] at h
    rcases hi : domainIntersect d₁ d₂ with e' | d'
    · rw [hi] at h
      exact (EStateM.Result.error.inj h).2.symm
    · simp [hi] at h
  · have hi : domainIntersect d₁ d₂ = .ok d := by
      rw [← domainIntersectCopy_eq, domainIntersectCopy, h]
    refine ⟨domainIntersect_denotes hi, (domainIntersect_canonical hi).imp_right ?_⟩
    rintro ⟨hl, hn⟩
    refine ⟨hl, fun x hx => ?_⟩
    simpa [condDomainIsNull] using (Domain.domainIsNull_eq_false.1 hn).2 x hx
  · simp only [domainIntersectCopy_eq]
    exact ⟨domainIntersect_comm hlen, domainIntersect_assoc hlen hlen', domainIntersect_self h₁⟩

theorem domainIntersectInPlace_spec_pairs :
    domainIntersectCopy [(0, dAny)] [(dAny, 2)] = domainIntersectCopy [(dAny, 2)] [(0, dAny)] :=
  ((domainIntersectInPlace_spec [(0, dAny)] [(dAny, 2)] [(0, 2)]).2.2.2 (by decide) (by decide)
    (by decide) rfl rfl).1

/-! ## `and_merge` -/

theorem insertCopies_eq (n : ℕ) (before ds : Domains) :
    insertCopies n before ds = before ++ ds.flatMap fun d => List.replicate (n + 1) d := by
  induction ds generalizing before with
  | nil => simp [insertCopies]
  | cons d ds ih =>
    rw [insertCopies, ih, List.flatMap_cons, List.replicate_succ', List.append_assoc,
      List.append_assoc, List.append_assoc]

theorem intersectPairs_eq (worksheet before ds wit : Domains) :
    intersectPairs worksheet before ds wit =
      (before ++ ·) <$> DomainCond.intersectCycle worksheet ds wit := by
  induction ds generalizing before wit with
  | nil =>
    simp only [intersectPairs, DomainCond.intersectCycle, Except.map_ok, List.append_nil]
  | cons d ds ih =>
    simp only [intersectPairs, DomainCond.intersectCycle]
    rcases hwit : (if wit.isEmpty = true then worksheet else wit) with _ | ⟨w, ws⟩
    · rfl
    · simp only [domainIntersectInPlace_eq]
      rcases domainIntersect d w with e | x
      · rfl
      · simp only [ih]
        rcases DomainCond.intersectCycle worksheet ds ws with e | xs
        · rfl
        · simp [Functor.map, Except.map, bind, Except.bind, pure, Except.pure]

theorem andMergeInPlace_eq : andMergeInPlace = DomainCond.andMerge := by
  funext domains worksheet
  unfold andMergeInPlace DomainCond.andMerge
  rcases worksheet with _ | ⟨w, ws⟩
  · rfl
  · simp only [List.length_cons, Nat.add_sub_cancel, insertCopies_eq, intersectPairs_eq,
      List.nil_append, id_map']

/-- The merged list is made of the intersections that are not null. -/
theorem mem_andMerge {domains worksheet : Domains} (hne : domains ≠ [])
    (hlen : ∀ d ∈ domains, ∀ w ∈ worksheet, d.length = w.length) :
    ∃ ds, DomainCond.andMerge domains worksheet = .ok ds ∧ ∀ r, r ∈ ds ↔
      domainIsNull r = false ∧ ∃ d ∈ domains, ∃ w ∈ worksheet, domainIntersect d w = .ok r := by
  have hde : domains.isEmpty = false := by simpa using hne
  rcases eq_or_ne worksheet [] with rfl | hwne
  · refine ⟨[], ?_, by simp⟩
    simp only [DomainCond.andMerge, hde, Bool.false_eq_true, if_false, List.isEmpty_nil, if_true]
    rfl
  obtain ⟨xs, hxs, hmem⟩ := DomainCond.intersectCycle_spec hwne domains fun d hd w hw =>
    domainIntersect_ok (.inr (.inr (hlen d hd w hw)))
  refine ⟨xs.filter (· ≠ domainCtorNull), ?_, fun r => ?_⟩
  · have hwe : worksheet.isEmpty = false := by simpa using hwne
    rw [DomainCond.intersectCycle_nil hwne] at hxs
    simp only [DomainCond.andMerge, hde, hwe, Bool.false_eq_true, if_false, hxs]
    rfl
  · rw [List.mem_filter, hmem, and_comm, decide_eq_true_eq]
    refine and_congr_left fun h => ?_
    obtain ⟨d, -, w, -, hr⟩ := h
    refine ⟨fun hn => ?_, fun hn => ?_⟩
    · exact ((domainIntersect_canonical hr).resolve_left hn).2
    · rintro rfl
      exact absurd hn (by decide)

/-- `and_merge` leaves the intersections of an old domain and one of the worksheet that are not
null, and they are together what both lists stand for. -/
theorem andMergeInPlace_spec (domains worksheet : Domains) {n : ℕ} (hne : domains ≠ [])
    (hd : ∀ d ∈ domains ++ worksheet, domainIsNull d = false ∧ d.length = n) :
    ∃ ds, andMergeInPlace domains worksheet = .ok ds ∧
      (∀ r ∈ ds, domainIsNull r = false) ∧
      Domains.denotes ds = Domains.denotes domains ∩ Domains.denotes worksheet ∧
      (∀ r ∈ ds, ∃ d ∈ domains, ∃ w ∈ worksheet, domainIntersectCopy d w = .ok r) ∧
      ∀ d ∈ domains, ∀ w ∈ worksheet, ∃ r, domainIntersectCopy d w = .ok r ∧
        (domainIsNull r = false → r ∈ ds) := by
  have hlen : ∀ d ∈ domains, ∀ w ∈ worksheet, d.length = w.length := fun d hdm w hwm =>
    (hd d (List.mem_append_left _ hdm)).2.trans (hd w (List.mem_append_right _ hwm)).2.symm
  obtain ⟨ds, hds, hmem⟩ := mem_andMerge hne hlen
  have hok : ∀ d ∈ domains, ∀ w ∈ worksheet, ∃ r, domainIntersect d w = .ok r :=
    fun d hdm w hwm => domainIntersect_ok (.inr (.inr (hlen d hdm w hwm)))
  rw [andMergeInPlace_eq, domainIntersectCopy_eq]
  refine ⟨ds, hds, fun r hr => ((hmem r).1 hr).1, ?_, fun r hr => ((hmem r).1 hr).2,
    fun d hdm w hwm => ?_⟩
  · ext v
    simp only [Domains.denotes, Set.mem_inter_iff, Set.mem_iUnion, exists_prop]
    constructor
    · rintro ⟨r, hr, hv⟩
      obtain ⟨d, hdm, w, hwm, hi⟩ := ((hmem r).1 hr).2
      rw [domainIntersect_denotes hi] at hv
      exact ⟨⟨d, hdm, hv.1⟩, w, hwm, hv.2⟩
    · rintro ⟨⟨d, hdm, hvd⟩, w, hwm, hvw⟩
      obtain ⟨r, hi⟩ := hok d hdm w hwm
      have hv : v ∈ r.denotes := by
        rw [domainIntersect_denotes hi]
        exact ⟨hvd, hvw⟩
      exact ⟨r, (hmem r).2 ⟨Domain.denotes_nonempty.1 ⟨v, hv⟩, d, hdm, w, hwm, hi⟩, hv⟩
  · obtain ⟨r, hi⟩ := hok d hdm w hwm
    exact ⟨r, hi, fun hn => (hmem r).2 ⟨hn, d, hdm, w, hwm, hi⟩⟩

theorem andMergeInPlace_spec_two : ∃ ds,
    andMergeInPlace [[(0, dAny)], [(1, dAny)]] [[(dAny, 2)], [(1, 3)]] = .ok ds ∧
      Domains.denotes ds = Domains.denotes [[(0, dAny)], [(1, dAny)]] ∩
        Domains.denotes [[(dAny, 2)], [(1, 3)]] := by
  obtain ⟨ds, hds, -, hden, -⟩ := andMergeInPlace_spec [[(0, dAny)], [(1, dAny)]]
    [[(dAny, 2)], [(1, 3)]] (n := 1) (by simp) (by decide)
  exact ⟨ds, hds, hden⟩

/-! ## `domain_intersect(ds)` -/

theorem intersectFront_eq (pre pre' f e : Domain) (hpre : pre.length = pre'.length)
    (hlen : f.length = e.length) :
    intersectFront (pre' ++ e) f.length pre.length (pre ++ f) =
      some (if (List.zipWith condDomainIntersect f e).any condDomainIsNull
        then (domainCtorNull, true) else (pre ++ List.zipWith condDomainIntersect f e, false)) := by
  induction f generalizing pre pre' e with
  | nil => simp [intersectFront]
  | cons x f ih =>
    obtain ⟨y, e, rfl⟩ := List.exists_cons_of_length_eq_add_one hlen.symm
    have hx : (pre ++ x :: f)[pre.length]? = some x := by simp
    have hy : (pre' ++ y :: e)[pre.length]? = some y := by simp [hpre]
    have hset : ∀ z, (pre ++ x :: f).set pre.length z = pre ++ z :: f := by simp
    simp only [List.length_cons, intersectFront, hx, hy, hset, Option.bind_eq_bind,
      Option.bind_some, List.zipWith_cons_cons, List.any_cons]
    by_cases hnull : condDomainIsNull (condDomainIntersect x y) = true
    · simp only [hnull, if_true, Bool.true_or]
    · have := ih (pre ++ [condDomainIntersect x y]) (pre' ++ [y]) e (by simp [hpre])
        (by simpa using hlen)
      simp only [List.append_assoc, List.singleton_append, List.length_append, List.length_cons,
        List.length_nil, zero_add] at this
      simp only [hnull, Bool.false_eq_true, if_false, this, Bool.false_or]

theorem isEmpty_zipWith {d₁ d₂ : Domain} (hne : d₁ ≠ []) (hlen : d₁.length = d₂.length) :
    (List.zipWith condDomainIntersect d₁ d₂).isEmpty = false := by
  rw [List.isEmpty_eq_false_iff, ← List.length_pos_iff, List.length_zipWith, ← hlen, min_self]
  exact List.length_pos_iff.2 hne

/-- A null domain among two of one size shows up in some entry of their intersection. -/
theorem domainIntersect_eq_zipWith {d₁ d₂ : Domain} (hne : d₁ ≠ []) (hlen : d₁.length = d₂.length) :
    domainIntersect d₁ d₂ =
      .ok (if (List.zipWith condDomainIntersect d₁ d₂).any condDomainIsNull then domainCtorNull
        else List.zipWith condDomainIntersect d₁ d₂) := by
  unfold domainIntersect
  by_cases hnull : (domainIsNull d₁ || domainIsNull d₂) = true
  · have hden : Domain.denotes (List.zipWith condDomainIntersect d₁ d₂) = ∅ := by
      rw [denotes_zipWith hlen]
      rcases Bool.or_eq_true_iff.1 hnull with h | h
      · rw [Domain.denotes_eq_empty.2 h, Set.empty_inter]
      · rw [Domain.denotes_eq_empty.2 h, Set.inter_empty]
    rw [Domain.denotes_eq_empty, domainIsNull, isEmpty_zipWith hne hlen, Bool.false_or] at hden
    rw [if_pos hnull, if_pos hden]
  · simp only [hnull, hlen, ne_eq, not_true_eq_false, Bool.false_eq_true, if_false]

/-- `n` entries, or the null domain. -/
def Domain.SizedOrNull (n : ℕ) (d : Domain) : Prop := d.length = n ∨ d = domainCtorNull

theorem Domain.SizedOrNull.ne_nil {n : ℕ} (hn : 1 ≤ n) {d : Domain} (h : d.SizedOrNull n) :
    d ≠ [] := by
  rintro rfl
  rcases h with h | h
  · simp at h
    omega
  · exact absurd h (by decide)

theorem domainIntersect_null {d₁ d₂ : Domain}
    (h : domainIsNull d₁ = true ∨ domainIsNull d₂ = true) :
    domainIntersect d₁ d₂ = .ok domainCtorNull := if_pos (Bool.or_eq_true_iff.2 h)

theorem Domain.SizedOrNull.intersect {n : ℕ} {d₁ d₂ d : Domain} (h₁ : d₁.SizedOrNull n)
    (h : domainIntersect d₁ d₂ = .ok d) : d.SizedOrNull n := by
  rcases domainIntersect_canonical h with hd | ⟨hlen, hn⟩
  · exact .inr hd
  rcases h₁ with h₁ | rfl
  · exact .inl (hlen.trans h₁)
  · rw [domainIntersect_null (.inl (by decide))] at h
    exact .inr (Except.ok.inj h).symm

/-- Where one of the two is the null domain, the first entries already intersect to null. -/
theorem intersectFront_null {front d : Domain} (hf : front ≠ []) (hd : d ≠ [])
    (h : front = domainCtorNull ∨ d = domainCtorNull) :
    intersectFront d front.length 0 front = some (domainCtorNull, true) := by
  obtain ⟨x, f, rfl⟩ := List.exists_cons_of_ne_nil hf
  obtain ⟨y, e, rfl⟩ := List.exists_cons_of_ne_nil hd
  have hxy : condDomainIsNull (condDomainIntersect x y) = true := by
    rw [← CondDomain.denotes_eq_empty, CondDomain.denotes_intersect]
    have hnull : CondDomain.denotes condDomainCtorNull = ∅ :=
      CondDomain.denotes_eq_empty.2 (by decide)
    rcases h with h | h
    · rw [(List.cons.inj h).1, hnull, Set.empty_inter]
    · rw [(List.cons.inj h).1, hnull, Set.inter_empty]
  simp [intersectFront, hxy]

/-- The inner loop on two domains of one size, or one of which is the null domain: it stays within
both and does what the binary intersection does, leaving by the `goto` if the result is null. -/
theorem intersectFront_spec {n : ℕ} (hn : 1 ≤ n) {front d : Domain}
    (hf : front.SizedOrNull n) (hd : d.SizedOrNull n) :
    ∃ x, domainIntersect front d = .ok x ∧
      intersectFront d front.length 0 front = some (x, domainIsNull x) := by
  by_cases hlen : front.length = d.length
  · have hne := hf.ne_nil hn
    refine ⟨_, domainIntersect_eq_zipWith hne hlen, ?_⟩
    have hfront := intersectFront_eq [] [] front d rfl hlen
    simp only [List.nil_append, List.length_nil] at hfront
    rw [hfront]
    split_ifs with hany
    · rfl
    · rw [Bool.not_eq_true] at hany
      rw [domainIsNull, hany, Bool.or_false, isEmpty_zipWith hne hlen]
  · have hnull : front = domainCtorNull ∨ d = domainCtorNull := by
      rcases hf with hf' | hf'
      · exact .inr (hd.resolve_left fun hd' => hlen (hf'.trans hd'.symm))
      · exact .inl hf'
    refine ⟨domainCtorNull, domainIntersect_null ?_, intersectFront_null (hf.ne_nil hn)
      (hd.ne_nil hn) hnull⟩
    rcases hnull with rfl | rfl
    · exact .inl (by decide)
    · exact .inr (by decide)

theorem foldlM_intersect_null (ds : Domains) {d : Domain} (hd : d = domainCtorNull) :
    ds.foldlM domainIntersect d = .ok domainCtorNull := by
  subst hd
  induction ds with
  | nil => rfl
  | cons d ds ih =>
    rw [List.foldlM_cons, domainIntersect_null (.inl (by decide))]
    exact ih

theorem intersectRest_spec {n : ℕ} (hn : 1 ≤ n) {ds : Domains} {front : Domain}
    (hf : front.SizedOrNull n) (hds : ∀ d ∈ ds, Domain.SizedOrNull n d) :
    ∃ r, intersectRest ds front = some r ∧ ds.foldlM domainIntersect front = .ok r := by
  induction ds generalizing front with
  | nil => exact ⟨front, rfl, rfl⟩
  | cons d ds ih =>
    obtain ⟨hd, hds⟩ := List.forall_mem_cons.1 hds
    obtain ⟨x, hx, hfront⟩ := intersectFront_spec hn hf hd
    simp only [intersectRest, hfront, Option.bind_eq_bind, Option.bind_some, List.foldlM_cons, hx]
    by_cases hnull : domainIsNull x = true
    · have hxe : x = domainCtorNull :=
        (domainIntersect_canonical hx).resolve_right fun h => by simp [h.2] at hnull
      rw [if_pos hnull]
      exact ⟨x, rfl, hxe ▸ foldlM_intersect_null ds rfl⟩
    · rw [if_neg hnull]
      exact ih (hf.intersect hx) hds

/-- The intersection of several domains stays within each of them and returns what intersecting
them two at a time from the left does. -/
theorem domainsIntersect_eq_foldlM {n : ℕ} (hn : 1 ≤ n) {front : Domain} {ds : Domains}
    (h : ∀ d ∈ front :: ds, Domain.SizedOrNull n d) :
    ∃ r, domainsIntersect (front :: ds) = some r ∧
      ds.foldlM domainIntersectCopy front = .ok r := by
  obtain ⟨hf, hds⟩ := List.forall_mem_cons.1 h
  rw [domainIntersectCopy_eq]
  exact intersectRest_spec hn hf hds

theorem domainsIntersect_eq_foldlM_three : ∃ r,
    domainsIntersect [[(0, dAny), (1, 2)], domainCtorNull, [(dAny, 2), (1, 3)]] = some r ∧
      [domainCtorNull, [(dAny, 2), (1, 3)]].foldlM domainIntersectCopy [(0, dAny), (1, 2)] =
        .ok r :=
  domainsIntersect_eq_foldlM (n := 2) (by decide) (by unfold Domain.SizedOrNull; decide)

end MfExtensions
