import Mathlib.Data.List.Sort

/-!
# Walks over lists that are not sorted

Merging two lists and intersecting them by keys reads both from the front and drops, or puts out,
the smaller of the two first elements. Where the lists are not sorted the result depends on what
stands before an element: `Climbs key l es` says that the elements of `es` come in this order in
`l`, and that what is passed over on the way to each has a smaller key. A walk over `l` keeps `es`
whatever the other list holds (`Climbs.merge_left`, `Climbs.merge_right`).

Lists in decreasing order are merged as blocks, in the order of their first elements (`merge_flat`),
so that a decreasing `es` that a merge of them climbs to is the front of one block
(`Climbs.prefix_block`).
-/

variable {α κ : Type} [LinearOrder κ] (key : α → κ)

/-- Every element of `l` before an element of `es` and after the one before it is smaller. -/
inductive Climbs : List α → List α → Prop
  | nil (l : List α) : Climbs l []
  | skip {x e : α} {l es : List α} (h : key x < key e) (hl : Climbs l (e :: es)) :
    Climbs (x :: l) (e :: es)
  | take {e : α} {l es : List α} (hl : Climbs l es) : Climbs (e :: l) (e :: es)

/-- The order a merge puts out by: the first list comes first where neither is smaller. -/
def keyLe (x y : α) : Bool := !decide (key y < key x)

theorem keyLe_iff {x y : α} : keyLe key x y = true ↔ key x ≤ key y := by
  simp [keyLe]

namespace Climbs

variable {key} {l l' es : List α}

theorem refl_append : ∀ es l : List α, Climbs key (es ++ l) es
  | [], l => .nil l
  | _ :: es, l => .take (refl_append es l)

theorem of_prefix (h : es <+: l) : Climbs key l es := by
  obtain ⟨l', rfl⟩ := h
  exact refl_append es l'

theorem sublist (h : Climbs key l es) : es.Sublist l := by
  induction h with
  | nil l => exact List.nil_sublist l
  | skip _ _ ih => exact ih.cons _
  | take _ ih => exact ih.cons_cons _

theorem trans {es' : List α} (h : Climbs key l es) (h' : Climbs key es es') : Climbs key l es' := by
  induction h generalizing es' with
  | nil l =>
    cases h'
    exact .nil l
  | skip hx _ ih =>
    cases h' with
    | nil => exact .nil _
    | skip he h' => exact .skip (hx.trans he) (ih (.skip he h'))
    | take h' => exact .skip hx (ih (.take h'))
  | take _ ih =>
    cases h' with
    | nil => exact .nil _
    | skip he h' => exact .skip he (ih h')
    | take h' => exact .take (ih h')

theorem head {e : α} (h : Climbs key l (e :: es)) : Climbs key l [e] :=
  h.trans (.take (.nil es))

/-- An element that is greater than all others is climbed to. -/
theorem of_max {e : α} (he : e ∈ l) (hmax : ∀ x ∈ l, x ≠ e → key x < key e) : Climbs key l [e] := by
  induction l with
  | nil => simp at he
  | cons x l ih =>
    rcases eq_or_ne x e with rfl | hx
    · exact .take (.nil l)
    · have hmem : e ∈ l := (List.mem_cons.1 he).resolve_left (Ne.symm hx)
      exact .skip (hmax x List.mem_cons_self hx)
        (ih hmem fun y hy => hmax y (List.mem_cons_of_mem x hy))

/-- Nothing but `es` is left of a list without repetitions that holds nothing else. -/
theorem eq_of_subset (h : Climbs key l es) (hl : l.Nodup) (hsub : l ⊆ es) : l = es :=
  (h.sublist.eq_of_length_le (List.subperm_of_subset hl hsub).length_le).symm

/-- What stands before the first element climbed to is smaller. -/
theorem lt_of_sublist {p e : α} (h : Climbs key l (e :: es)) (hl : l.Nodup)
    (hsub : [p, e].Sublist l) : key p < key e := by
  induction l with
  | nil => simp at hsub
  | cons x l ih =>
    obtain ⟨hx, hl⟩ := List.nodup_cons.1 hl
    cases h with
    | take _ =>
      rcases List.sublist_cons_iff.1 hsub with hsub | ⟨_, heq, hsub⟩
      · exact absurd (hsub.subset (by simp)) hx
      · obtain ⟨rfl, rfl⟩ := List.cons.inj heq
        exact absurd (hsub.subset (by simp)) hx
    | skip hlt h =>
      rcases List.sublist_cons_iff.1 hsub with hsub | ⟨_, heq, _⟩
      · exact ih h hl hsub
      · obtain ⟨rfl, -⟩ := List.cons.inj heq
        exact hlt

/-- To the elements that satisfy `p`: whatever does not is smaller than the next that does. -/
theorem filter_iff (p : α → Bool) : Climbs key l (l.filter p) ↔
    ∀ x rest, x :: rest <:+ l → p x = false → ∀ e ∈ rest.find? p, key x < key e := by
  induction l with
  | nil => simp [Climbs.nil]
  | cons y l ih =>
    cases hp : p y with
    | true =>
      rw [List.filter_cons_of_pos hp]
      constructor
      · intro h x rest hsuf hx
        rcases List.suffix_cons_iff.1 hsuf with heq | hsuf
        · obtain ⟨rfl, rfl⟩ := List.cons.inj heq
          simp [hp] at hx
        · cases h with
          | skip h _ => exact absurd h (lt_irrefl _)
          | take h => exact ih.1 h x rest hsuf hx
      · intro h
        exact .take (ih.2 fun x rest hsuf => h x rest (hsuf.trans (List.suffix_cons y l)))
    | false =>
      rw [List.filter_cons_of_neg (by simp [hp])]
      have hnext : Climbs key (y :: l) (l.filter p) ↔
          Climbs key l (l.filter p) ∧ ∀ e ∈ l.find? p, key y < key e := by
        rw [← List.head?_filter]
        cases hes : l.filter p with
        | nil => simp [Climbs.nil]
        | cons e es =>
          have hpe : p e = true := (List.mem_filter.1 (hes ▸ List.mem_cons_self)).2
          constructor
          · intro h
            cases h with
            | skip hlt h => exact ⟨h, by simpa using hlt⟩
            | take h => simp [hp] at hpe
          · rintro ⟨h, hlt⟩
            exact .skip (hlt e rfl) h
      rw [hnext, ih]
      constructor
      · rintro ⟨h, hy⟩ x rest hsuf hx
        rcases List.suffix_cons_iff.1 hsuf with heq | hsuf
        · obtain ⟨rfl, rfl⟩ := List.cons.inj heq
          exact hy
        · exact h x rest hsuf hx
      · intro h
        exact ⟨fun x rest hsuf => h x rest (hsuf.trans (List.suffix_cons y l)),
          h y l (List.suffix_refl _) hp⟩

/-! ## Merging -/

theorem merge_left (h : Climbs key l es) (l' : List α) :
    Climbs key (l.merge l' (keyLe key)) es := by
  induction h generalizing l' with
  | nil => exact .nil _
  | @skip x e l es hx hl ih =>
    induction l' with
    | nil => simpa using Climbs.skip hx hl
    | cons y l' ih' =>
      rw [List.cons_merge_cons]
      split_ifs with hxy
      · exact .skip hx (ih _)
      · rw [keyLe_iff, not_le] at hxy
        exact .skip (hxy.trans hx) ih'
  | @take e l es hl ih =>
    induction l' with
    | nil => simpa using Climbs.take hl
    | cons y l' ih' =>
      rw [List.cons_merge_cons]
      split_ifs with hxy
      · exact .take (ih _)
      · rw [keyLe_iff, not_le] at hxy
        exact .skip hxy ih'

theorem merge_right (h : Climbs key l' es) (hne : ∀ x ∈ l, ∀ e ∈ es, key x ≠ key e) :
    Climbs key (l.merge l' (keyLe key)) es := by
  induction h generalizing l with
  | nil => exact .nil _
  | @skip y e l' es hy hl ih =>
    induction l with
    | nil => simpa using Climbs.skip hy hl
    | cons x l ih' =>
      rw [List.cons_merge_cons]
      split_ifs with hxy
      · rw [keyLe_iff] at hxy
        exact .skip (hxy.trans_lt hy) (ih' fun z hz => hne z (List.mem_cons_of_mem x hz))
      · exact .skip hy (ih hne)
  | @take e l' es hl ih =>
    induction l with
    | nil => simpa using Climbs.take hl
    | cons x l ih' =>
      rw [List.cons_merge_cons]
      split_ifs with hxy
      · rw [keyLe_iff] at hxy
        have hlt := lt_of_le_of_ne hxy (hne x List.mem_cons_self e List.mem_cons_self)
        exact .skip hlt (ih' fun z hz => hne z (List.mem_cons_of_mem x hz))
      · exact .take (ih fun z hz f hf => hne z hz f (List.mem_cons_of_mem e hf))

end Climbs

theorem sublist_merge_left : ∀ l l' : List α, l.Sublist (l.merge l' (keyLe key))
  | [], _ => List.nil_sublist _
  | x :: l, [] => by simp
  | x :: l, y :: l' => by
    rw [List.cons_merge_cons]
    split_ifs
    · exact (sublist_merge_left l (y :: l')).cons_cons x
    · exact (sublist_merge_left (x :: l) l').cons y

theorem sublist_merge_right : ∀ l l' : List α, l'.Sublist (l.merge l' (keyLe key))
  | [], _ => by simp
  | _ :: _, [] => List.nil_sublist _
  | x :: l, y :: l' => by
    rw [List.cons_merge_cons]
    split_ifs
    · exact (sublist_merge_right l (y :: l')).cons x
    · exact (sublist_merge_right (x :: l) l').cons_cons y

/-! ## Decreasing lists -/

/-- A block is a list that is not empty, by its first element and the rest. -/
abbrev Block (α : Type) := α × List α

def flat (bs : List (Block α)) : List α := bs.flatMap fun b => b.1 :: b.2

/-- The elements of `l` are decreasing. -/
def Decreasing (l : List α) : Prop := l.Pairwise fun x y => key y < key x

theorem merge_of_lt {x : α} {l : List α} : ∀ {ys : List α}, (∀ y ∈ ys, key y < key x) →
    (x :: l).merge ys (keyLe key) = ys ++ x :: l
  | [], _ => by simp
  | y :: ys, h => by
    have hy := h y List.mem_cons_self
    rw [List.cons_merge_cons_neg _ _ _ (by rw [keyLe_iff, not_le]; exact hy),
      merge_of_lt fun z hz => h z (List.mem_cons_of_mem y hz)]
    rfl

theorem merge_append {y : α} {ys l : List α} : ∀ {xs : List α}, (∀ x ∈ xs, key x ≤ key y) →
    (xs ++ l).merge (y :: ys) (keyLe key) = xs ++ l.merge (y :: ys) (keyLe key)
  | [], _ => rfl
  | x :: xs, h => by
    rw [List.cons_append, List.cons_merge_cons_pos _ _ _ ((keyLe_iff key).2
      (h x List.mem_cons_self)), merge_append fun z hz => h z (List.mem_cons_of_mem x hz)]
    rfl

/-- Put a block before the first that starts with a greater element. -/
def insertBlock (b : Block α) : List (Block α) → List (Block α)
  | [] => [b]
  | c :: bs => if key b.1 < key c.1 then b :: c :: bs else c :: insertBlock b bs

variable {key} {b : Block α} {bs : List (Block α)}

theorem mem_insertBlock {c : Block α} : c ∈ insertBlock key b bs ↔ c = b ∨ c ∈ bs := by
  induction bs with
  | nil => simp [insertBlock]
  | cons d bs ih =>
    rw [insertBlock]
    split_ifs
    · rw [List.mem_cons]
    · rw [List.mem_cons, ih, List.mem_cons]
      tauto

theorem insertBlock_sorted (h : bs.Pairwise fun c d => key c.1 ≤ key d.1) :
    (insertBlock key b bs).Pairwise fun c d => key c.1 ≤ key d.1 := by
  induction bs with
  | nil => simp [insertBlock]
  | cons c bs ih =>
    obtain ⟨hc, hbs⟩ := List.pairwise_cons.1 h
    rw [insertBlock]
    split_ifs with hlt
    · refine List.pairwise_cons.2 ⟨fun d hd => ?_, h⟩
      rcases List.mem_cons.1 hd with rfl | hd
      · exact hlt.le
      · exact hlt.le.trans (hc d hd)
    · refine List.pairwise_cons.2 ⟨fun d hd => ?_, ih hbs⟩
      rcases mem_insertBlock.1 hd with rfl | hd
      · exact not_lt.1 hlt
      · exact hc d hd

/-- Merging a decreasing list into blocks puts it among them. -/
theorem merge_flat (hb : Decreasing key (b.1 :: b.2))
    (hbs : ∀ c ∈ bs, Decreasing key (c.1 :: c.2)) :
    (flat bs).merge (b.1 :: b.2) (keyLe key) = flat (insertBlock key b bs) := by
  induction bs with
  | nil => simp [flat, insertBlock]
  | cons c bs ih =>
    have hflat : flat (c :: bs) = (c.1 :: c.2) ++ flat bs := rfl
    rw [insertBlock]
    split_ifs with hlt
    · have hsmaller : ∀ y ∈ b.1 :: b.2, key y < key c.1 := by
        intro y hy
        rcases List.mem_cons.1 hy with rfl | hy
        · exact hlt
        · exact ((List.pairwise_cons.1 hb).1 y hy).trans hlt
      rw [hflat, List.cons_append, merge_of_lt key hsmaller]
      rfl
    · have hsmaller : ∀ x ∈ c.1 :: c.2, key x ≤ key b.1 := by
        intro x hx
        rcases List.mem_cons.1 hx with rfl | hx
        · exact not_lt.1 hlt
        · exact ((List.pairwise_cons.1 (hbs c List.mem_cons_self)).1 x hx).le.trans (not_lt.1 hlt)
      rw [hflat, merge_append key hsmaller, ih fun d hd => hbs d (List.mem_cons_of_mem c hd)]
      rfl

namespace Climbs

variable {l l' es : List α} {e : α}

theorem drop_smaller (h : Climbs key (l ++ l') (e :: es)) (hl : ∀ x ∈ l, key x < key e) :
    Climbs key l' (e :: es) := by
  induction l with
  | nil => exact h
  | cons x l ih =>
    cases h with
    | skip _ h => exact ih h fun y hy => hl y (List.mem_cons_of_mem x hy)
    | take _ => exact absurd (hl e List.mem_cons_self) (lt_irrefl _)

/-- No element is climbed to past blocks that start with greater ones. -/
theorem not_flat (hbs : ∀ b ∈ bs, key e < key b.1) : ¬Climbs key (flat bs) (e :: es) := by
  intro h
  cases bs with
  | nil => cases h
  | cons b bs =>
    have hlt := hbs b List.mem_cons_self
    cases h with
    | skip hx _ => exact absurd hx (not_lt_of_gt hlt)
    | take _ => exact absurd hlt (lt_irrefl _)

/-- Decreasing elements climbed to are next to each other in a decreasing list. -/
theorem prefix_rest (hl : Decreasing key l) (hes : Decreasing key es)
    (hbs : ∀ b ∈ bs, ∀ e ∈ es, key e < key b.1) (h : Climbs key (l ++ flat bs) es) : es <+: l := by
  induction l generalizing es with
  | nil =>
    cases es with
    | nil => exact List.nil_prefix
    | cons e es => exact absurd h (not_flat fun b hb => hbs b hb e List.mem_cons_self)
  | cons x l ih =>
    obtain ⟨hx, hl⟩ := List.pairwise_cons.1 hl
    cases h with
    | nil => exact List.nil_prefix
    | skip hlt h =>
      have hrest := h.drop_smaller fun y hy => (hx y hy).trans hlt
      exact absurd hrest (not_flat fun b hb => hbs b hb _ List.mem_cons_self)
    | take h =>
      rw [List.prefix_cons_inj]
      exact ih hl (List.pairwise_cons.1 hes).2
        (fun b hb e he => hbs b hb e (List.mem_cons_of_mem _ he)) h

/-- Decreasing elements climbed to in blocks are the front of one of them. -/
theorem prefix_block (hdesc : ∀ b ∈ bs, Decreasing key (b.1 :: b.2))
    (hbs : bs.Pairwise fun c d => key c.1 ≤ key d.1) (hes : Decreasing key (e :: es))
    (h : Climbs key (flat bs) (e :: es)) : ∃ b ∈ bs, e :: es <+: b.1 :: b.2 := by
  induction bs with
  | nil => cases h
  | cons b bs ih =>
    obtain ⟨hb, hbs⟩ := List.pairwise_cons.1 hbs
    have hdesc_b := List.pairwise_cons.1 (hdesc b List.mem_cons_self)
    cases h with
    | skip hlt h =>
      have hrest : Climbs key (flat bs) (e :: es) :=
        h.drop_smaller fun y hy => (hdesc_b.1 y hy).trans hlt
      obtain ⟨c, hc, hpre⟩ := ih (fun c hc => hdesc c (List.mem_cons_of_mem b hc)) hbs hrest
      exact ⟨c, List.mem_cons_of_mem b hc, hpre⟩
    | take h =>
      obtain ⟨he, hes⟩ := List.pairwise_cons.1 hes
      refine ⟨b, List.mem_cons_self, (List.prefix_cons_inj _).2 ?_⟩
      exact prefix_rest hdesc_b.2 hes (fun c hc f hf => (he f hf).trans_le (hb c hc)) h

end Climbs
