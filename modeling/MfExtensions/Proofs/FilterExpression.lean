import MfExtensions.Lib.Joined
import MfExtensions.MsgViewer

/-!
# What a tab is found by

A tab is found by the names its filters are of, joined to a text that does not say of which kind a
name is. Whatever is selected, something else has the same text (`filterExpression_shared`). Where
the names are not empty and have no `|` or `&` in them the text tells what names are selected
together, in the order of the text, and no more (`filterExpression_eq_iff`).
-/

namespace MfExtensions

namespace MsgViewer

variable {x y : Str} {hostFilter appFilter catFilter : List Str}

/-- The names of one kind. -/
def anyOf (names : List Str) : Str := " || ".toList.intercalate names

/-- The kinds that take part in the text, in its order. -/
def exprParts (hostFilter appFilter catFilter : List Str) : List Str :=
  [anyOf catFilter, anyOf hostFilter, anyOf appFilter].filter (· ≠ [])

/-- The text of the kinds. -/
def allOf : List Str → Str
  | [x] => x
  | xs => "(".toList ++ ") && (".toList.intercalate xs ++ ")".toList

theorem filterExpression_eq (hostFilter appFilter catFilter : List Str) :
    filterExpression hostFilter appFilter catFilter =
      allOf (exprParts hostFilter appFilter catFilter) := by
  have hany : ∀ names, " || ".toList.intercalate names = anyOf names := fun _ => rfl
  simp only [filterExpression, exprParts, hany]
  by_cases hc : anyOf catFilter = [] <;> by_cases hh : anyOf hostFilter = [] <;>
    by_cases ha : anyOf appFilter = [] <;>
    simp [hc, hh, ha, allOf, List.intercalate_cons_cons]

/-! ## Selections that share their text -/

@[simp] theorem anyOf_nil : anyOf [] = [] := rfl

@[simp] theorem anyOf_singleton (x : Str) : anyOf [x] = x := List.intercalate_singleton

theorem anyOf_cons_cons (x y : Str) (names : List Str) :
    anyOf (x :: y :: names) = x ++ " || ".toList ++ anyOf (y :: names) :=
  List.intercalate_cons_cons

theorem filterExpression_one (hx : x ≠ []) :
    filterExpression [x] [] [] = allOf [x] ∧ filterExpression [] [x] [] = allOf [x] := by
  simp [filterExpression_eq, exprParts, hx]

theorem filterExpression_two (hx : x ≠ []) (hy : y ≠ []) :
    filterExpression [x] [y] [] = allOf [x, y] ∧ filterExpression [] [y] [x] = allOf [x, y] := by
  simp [filterExpression_eq, exprParts, hx, hy]

/-- One of two selections is another one. -/
theorem other_of_two {e : Str} {h₁ a₁ c₁ h₂ a₂ c₂ : List Str}
    (h₁e : filterExpression h₁ a₁ c₁ = e) (h₂e : filterExpression h₂ a₂ c₂ = e)
    (hne₁ : (h₁, a₁, c₁) ≠ ([], [], [])) (hne₂ : (h₂, a₂, c₂) ≠ ([], [], []))
    (hne : (h₁, a₁, c₁) ≠ (h₂, a₂, c₂)) (sel : List Str × List Str × List Str) :
    ∃ h a c, (h, a, c) ≠ ([], [], []) ∧ (h, a, c) ≠ sel ∧ filterExpression h a c = e := by
  by_cases heq : (h₁, a₁, c₁) = sel
  · exact ⟨h₂, a₂, c₂, hne₂, fun h => hne (heq.trans h.symm), h₂e⟩
  · exact ⟨h₁, a₁, c₁, hne₁, heq, h₁e⟩

/-- Whatever is selected, something else is shown in its tab. -/
theorem filterExpression_shared (hostFilter appFilter catFilter : List Str) :
    ∃ host app cat, (host, app, cat) ≠ ([], [], []) ∧
      (host, app, cat) ≠ (hostFilter, appFilter, catFilter) ∧
      filterExpression host app cat = filterExpression hostFilter appFilter catFilter := by
  rw [filterExpression_eq hostFilter]
  have hparts : ∀ x ∈ exprParts hostFilter appFilter catFilter, x ≠ [] := fun x hx => by
    simpa using (List.mem_filter.1 hx).2
  have hlength : (exprParts hostFilter appFilter catFilter).length ≤ 3 :=
    List.length_filter_le _ _
  rcases h : exprParts hostFilter appFilter catFilter with _ | ⟨x, _ | ⟨y, _ | ⟨z, zs⟩⟩⟩
  · exact @other_of_two _ [[]] [] [] [] [[]] []
      (by decide) (by decide) (by decide) (by decide) (by decide) _
  · have hx : x ≠ [] := hparts x (by simp [h])
    exact other_of_two (filterExpression_one hx).1 (filterExpression_one hx).2 (by simp) (by simp)
      (by simp) _
  · have hx : x ≠ [] := hparts x (by simp [h])
    have hy : y ≠ [] := hparts y (by simp [h])
    exact other_of_two (filterExpression_two hx hy).1 (filterExpression_two hx hy).2 (by simp)
      (by simp) (by simp) _
  · -- the category and the host of three kinds are the name of one host of two
    have hx : x ≠ [] := hparts x (by simp [h])
    have hz : z ≠ [] := hparts z (by simp [h])
    obtain rfl : zs = [] := by
      simp only [h, List.length_cons] at hlength
      exact List.length_eq_zero_iff.mp (by omega)
    have htwo := filterExpression_two (x := x ++ ") && (".toList ++ y) (y := z) (by simp [hx]) hz
    refine ⟨_, _, _, ?_, ?_, htwo.1.trans ?_⟩
    · simp
    · intro heq
      have hcat : catFilter = [] := by
        have := congrArg (fun t => t.2.2) heq
        simpa using this.symm
      have hle : (exprParts hostFilter appFilter catFilter).length ≤ 2 := by
        rw [exprParts, hcat, anyOf_nil, List.filter_cons_of_neg (by simp)]
        exact List.length_filter_le _ _
      simp [h] at hle
    · simp [allOf, List.intercalate_cons_cons]

/-! ## Names without separators -/

/-- Names that are not empty and have nothing in them that the text is joined with. -/
def Plain (names : List Str) : Prop := ∀ x ∈ names, x ≠ [] ∧ '|' ∉ x ∧ '&' ∉ x

/-- The kinds of which something is selected. -/
def kinds (hostFilter appFilter catFilter : List Str) : List (List Str) :=
  [catFilter, hostFilter, appFilter].filter (· ≠ [])

theorem anyOf_eq_nil {names : List Str} (h : Plain names) : anyOf names = [] ↔ names = [] := by
  constructor
  · intro hnil
    rcases names with _ | ⟨x, _ | ⟨y, names⟩⟩
    · rfl
    · rw [anyOf_singleton] at hnil
      exact absurd hnil (h x List.mem_cons_self).1
    · simp [anyOf_cons_cons] at hnil
  · rintro rfl
    rfl

theorem notMem_anyOf : ∀ {names : List Str}, Plain names → '&' ∉ anyOf names
  | [], _ => by simp
  | [x], h => by simpa using (h x List.mem_cons_self).2.2
  | x :: y :: names, h => by
    have hrest := @notMem_anyOf (y :: names) fun z hz => h z (List.mem_cons_of_mem x hz)
    simp [anyOf_cons_cons, (h x List.mem_cons_self).2.2, hrest]

theorem anyOf_inj {names names' : List Str} (h : Plain names) (h' : Plain names')
    (hne : names ≠ []) (hne' : names' ≠ []) (heq : anyOf names = anyOf names') : names = names' :=
  Joined.inj (c := '|') (by decide) hne hne' (fun x hx => (h x hx).2.1) (fun x hx => (h' x hx).2.1)
    heq

theorem allOf_cons_cons (x y : Str) (zs : List Str) : allOf (x :: y :: zs) =
    "(".toList ++ ") && (".toList.intercalate (x :: y :: zs) ++ ")".toList := rfl

theorem mem_allOf (x y : Str) (zs : List Str) : '&' ∈ allOf (x :: y :: zs) := by
  rw [allOf_cons_cons]
  exact List.mem_append_left _ (List.mem_append_right _
    (Joined.mem_intercalate (by decide) x y zs))

theorem allOf_inj {xs ys : List Str} (hx : ∀ x ∈ xs, '&' ∉ x) (hy : ∀ y ∈ ys, '&' ∉ y)
    (hxs : xs ≠ []) (hys : ys ≠ []) (h : allOf xs = allOf ys) : xs = ys := by
  rcases xs with _ | ⟨x, _ | ⟨x', xs⟩⟩
  · exact absurd rfl hxs
  · rcases ys with _ | ⟨y, _ | ⟨y', ys⟩⟩
    · exact absurd rfl hys
    · rw [show x = y from h]
    · have hmem := mem_allOf y y' ys
      rw [← h] at hmem
      exact absurd hmem (hx x List.mem_cons_self)
  · rcases ys with _ | ⟨y, _ | ⟨y', ys⟩⟩
    · exact absurd rfl hys
    · have hmem := mem_allOf x x' xs
      rw [h] at hmem
      exact absurd hmem (hy y List.mem_cons_self)
    · rw [allOf_cons_cons, allOf_cons_cons] at h
      exact Joined.inj (c := '&') (by decide) hxs hys hx hy
        (List.append_cancel_left (List.append_cancel_right h))

theorem plain_of_mem (hh : Plain hostFilter) (ha : Plain appFilter) (hc : Plain catFilter)
    {names : List Str} (h : names ∈ [catFilter, hostFilter, appFilter]) : Plain names := by
  simp only [List.mem_cons, List.not_mem_nil, or_false] at h
  rcases h with rfl | rfl | rfl
  · exact hc
  · exact hh
  · exact ha

theorem exprParts_eq (hh : Plain hostFilter) (ha : Plain appFilter) (hc : Plain catFilter) :
    exprParts hostFilter appFilter catFilter =
      (kinds hostFilter appFilter catFilter).map anyOf := by
  have hmap : exprParts hostFilter appFilter catFilter =
      ([catFilter, hostFilter, appFilter].map anyOf).filter (· ≠ []) := rfl
  rw [hmap, List.filter_map, kinds]
  congr 1
  refine List.filter_congr fun names hnames => ?_
  simp [anyOf_eq_nil (plain_of_mem hh ha hc hnames)]

theorem kinds_spec (hh : Plain hostFilter) (ha : Plain appFilter) (hc : Plain catFilter) :
    ∀ names ∈ kinds hostFilter appFilter catFilter, Plain names ∧ names ≠ [] := by
  intro names hnames
  obtain ⟨hmem, hne⟩ := List.mem_filter.1 hnames
  exact ⟨plain_of_mem hh ha hc hmem, by simpa using hne⟩

theorem map_anyOf_inj : ∀ {ls ls' : List (List Str)}, (∀ l ∈ ls, Plain l ∧ l ≠ []) →
    (∀ l ∈ ls', Plain l ∧ l ≠ []) → ls.map anyOf = ls'.map anyOf → ls = ls'
  | [], [], _, _, _ => rfl
  | [], _ :: _, _, _, h => by simp at h
  | _ :: _, [], _, _, h => by simp at h
  | l :: ls, l' :: ls', hl, hl', h => by
    rw [List.forall_mem_cons] at hl hl'
    obtain ⟨hfirst, hrest⟩ := List.cons.inj h
    rw [anyOf_inj hl.1.1 hl'.1.1 hl.1.2 hl'.1.2 hfirst, map_anyOf_inj hl.2 hl'.2 hrest]

/-- Of plain names the text tells the kinds in order, but not which they are. -/
theorem filterExpression_eq_iff {host app cat : List Str} (hh : Plain hostFilter)
    (ha : Plain appFilter) (hc : Plain catFilter) (hh' : Plain host) (ha' : Plain app)
    (hc' : Plain cat) (hne : kinds hostFilter appFilter catFilter ≠ [])
    (hne' : kinds host app cat ≠ []) :
    filterExpression hostFilter appFilter catFilter = filterExpression host app cat ↔
      kinds hostFilter appFilter catFilter = kinds host app cat := by
  rw [filterExpression_eq, filterExpression_eq, exprParts_eq hh ha hc, exprParts_eq hh' ha' hc']
  have hspec := kinds_spec hh ha hc
  have hspec' := kinds_spec hh' ha' hc'
  constructor
  · intro h
    refine map_anyOf_inj hspec hspec' (allOf_inj ?_ ?_ (by simpa using hne) (by simpa using hne') h)
    · exact List.forall_mem_map.2 fun names hn => notMem_anyOf (hspec names hn).1
    · exact List.forall_mem_map.2 fun names hn => notMem_anyOf (hspec' names hn).1
  · intro h
    rw [h]

end MsgViewer

/-- A host and an application of the same name: where the tab of the host is open, pressing Filter
for the application shows that one. -/
theorem filterExpression_host_app : (["a".toList], ([] : List Str)) ≠ ([], ["a".toList]) ∧
    MsgViewer.filterExpression ["a".toList] [] [] =
      MsgViewer.filterExpression [] ["a".toList] [] ∧
    ∃ s : MsgViewer Bool,
      s = (MsgViewer.parseConf {}).setFilter (fun b => b.toNat) ["a".toList] [] [] ∧
      s.setFilter (fun b => b.toNat) [] ["a".toList] [] = s ∧
      s.msgFilters.map (·.appFilter) = [[], []] :=
  ⟨by decide, rfl, _, rfl, rfl, rfl⟩

end MfExtensions
