import Mathlib.Data.List.Induction
import MfExtensions.Lib.Climb
import MfExtensions.Proofs.MsgViewer

/-!
# Merging and intersecting

`listIntersect` and `merge` take lists in the order of arrival as if they were in the order of the
addresses. An intersection climbs in both its lists (`climbs_listIntersect`,
`listIntersect_climbs`), and what climbs in a merge of lists in decreasing order is at the front of
one of them (`prefix_of_climbs`).
-/

namespace MfExtensions

open Machine

namespace MsgViewer

variable {M : Type} {addr : M → ℕ} {pool es l l₁ l₂ : List M}

/-! ## Intersections -/

theorem climbs_listIntersect {es l₁ l₂ : List M} (h₁ : Climbs addr l₁ es) (h₂ : Climbs addr l₂ es) :
    Climbs addr (listIntersect addr l₁ l₂) es := by
  induction l₁, l₂ using listIntersect.induct addr generalizing es with
  | case1 l₂ =>
    cases h₁
    exact .nil _
  | case2 x xs =>
    cases h₂
    exact .nil _
  | case3 x xs y ys hlt ih =>
    rw [listIntersect, if_pos hlt]
    cases h₁ with
    | nil => exact .nil _
    | skip _ h₁ => exact ih h₁ h₂
    | take h₁ =>
      cases h₂ with
      | skip hy _ => exact absurd hy (not_lt_of_gt hlt)
      | take _ => exact absurd hlt (lt_irrefl _)
  | case4 x xs y ys hnlt hlt ih =>
    rw [listIntersect, if_neg hnlt, if_pos hlt]
    cases h₂ with
    | nil => exact .nil _
    | skip _ h₂ => exact ih h₁ h₂
    | take h₂ =>
      cases h₁ with
      | skip hx _ => exact absurd hx hnlt
      | take _ => exact absurd hlt (lt_irrefl _)
  | case5 x xs y ys hnlt hngt ih =>
    rw [listIntersect, if_neg hnlt, if_neg hngt]
    have heq : addr x = addr y := le_antisymm (not_lt.1 hngt) (not_lt.1 hnlt)
    cases h₁ with
    | nil => exact .nil _
    | skip hx h₁ =>
      cases h₂ with
      | skip _ h₂ => exact .skip hx (ih h₁ h₂)
      | take _ => exact absurd (heq ▸ hx) (lt_irrefl _)
    | take h₁ =>
      cases h₂ with
      | skip hy _ => exact absurd (heq ▸ hy) (lt_irrefl _)
      | take h₂ => exact .take (ih h₁ h₂)

/-- What an intersection puts out climbs in both lists. -/
theorem listIntersect_climbs (hinj : ∀ x ∈ l₁, ∀ y ∈ l₂, addr x = addr y → x = y) :
    Climbs addr l₁ (listIntersect addr l₁ l₂) ∧ Climbs addr l₂ (listIntersect addr l₁ l₂) := by
  induction l₁, l₂ using listIntersect.induct addr with
  | case1 l₂ =>
    rw [listIntersect]
    exact ⟨.nil _, .nil _⟩
  | case2 x xs =>
    rw [listIntersect]
    exact ⟨.nil _, .nil _⟩
  | case3 x xs y ys hlt ih =>
    rw [listIntersect, if_pos hlt]
    obtain ⟨h₁, h₂⟩ := ih fun z hz => hinj z (List.mem_cons_of_mem x hz)
    refine ⟨?_, h₂⟩
    cases ho : listIntersect addr xs (y :: ys) with
    | nil => exact .nil _
    | cons e es =>
      rw [ho] at h₁ h₂
      refine .skip ?_ h₁
      cases h₂ with
      | skip hy _ => exact hlt.trans hy
      | take _ => exact hlt
  | case4 x xs y ys hnlt hlt ih =>
    rw [listIntersect, if_neg hnlt, if_pos hlt]
    obtain ⟨h₁, h₂⟩ := ih fun z hz w hw => hinj z hz w (List.mem_cons_of_mem y hw)
    refine ⟨h₁, ?_⟩
    cases ho : listIntersect addr (x :: xs) ys with
    | nil => exact .nil _
    | cons e es =>
      rw [ho] at h₁ h₂
      refine .skip ?_ h₂
      cases h₁ with
      | skip hx _ => exact hlt.trans hx
      | take _ => exact hlt
  | case5 x xs y ys hnlt hngt ih =>
    rw [listIntersect, if_neg hnlt, if_neg hngt]
    have hxy : x = y := hinj x List.mem_cons_self y List.mem_cons_self
      (le_antisymm (not_lt.1 hngt) (not_lt.1 hnlt))
    obtain ⟨h₁, h₂⟩ := ih fun z hz w hw =>
      hinj z (List.mem_cons_of_mem x hz) w (List.mem_cons_of_mem y hw)
    exact ⟨.take h₁, hxy ▸ .take h₂⟩

theorem mem_listIntersect (hinj : ∀ x ∈ l₁, ∀ y ∈ l₂, addr x = addr y → x = y) {m : M}
    (hm : m ∈ listIntersect addr l₁ l₂) : m ∈ l₁ ∧ m ∈ l₂ :=
  ⟨(listIntersect_climbs hinj).1.sublist.subset hm, (listIntersect_climbs hinj).2.sublist.subset hm⟩

/-! ## Lists in the order of arrival -/

section Arrival

variable [DecidableEq M]

/-- Whatever of `l` is not in `l'` is stored before the next message that is. -/
def PassesUp (addr : M → ℕ) (l l' : List M) : Prop :=
  ∀ x rest, x :: rest <:+ l → x ∉ l' → ∀ e ∈ rest.find? (· ∈ l'), addr x < addr e

theorem climbs_iff_passesUp :
    Climbs addr l (l.filter (· ∈ l₂)) ↔ PassesUp addr l l₂ := by
  rw [Climbs.filter_iff, PassesUp]
  simp only [decide_eq_false_iff_not]

theorem eq_filter_of_sublist (hpool : pool.Nodup) (hl : l.Sublist pool) :
    l = pool.filter (· ∈ l) := by
  have hsub : l.Sublist (pool.filter (· ∈ l)) := by
    have hself : l.filter (· ∈ l) = l := List.filter_eq_self.2 fun m hm => decide_eq_true hm
    have hfilter := hl.filter fun m => decide (m ∈ l)
    rwa [hself] at hfilter
  refine hsub.eq_of_length_le (List.subperm_of_subset (hpool.filter _) fun m hm => ?_).length_le
  simpa using (List.mem_filter.1 hm).2

/-- The messages of both lists, in the order of arrival. -/
def inBoth (pool l₁ l₂ : List M) : List M := pool.filter fun m => m ∈ l₁ ∧ m ∈ l₂

theorem inBoth_eq_left (hpool : pool.Nodup) (h₁ : l₁.Sublist pool) :
    inBoth pool l₁ l₂ = l₁.filter (· ∈ l₂) := by
  conv_rhs => rw [eq_filter_of_sublist hpool h₁, List.filter_filter]
  refine List.filter_congr fun m _ => ?_
  simp [Bool.and_comm]

theorem inBoth_comm : inBoth pool l₁ l₂ = inBoth pool l₂ l₁ := by
  simp only [inBoth, and_comm]

/-- Where addresses differ an intersection is right just if neither list passes over a message that
is stored after the next of both. -/
theorem listIntersect_eq_iff (hpool : pool.Nodup) (hinj : Set.InjOn addr {m | m ∈ pool})
    (h₁ : l₁.Sublist pool) (h₂ : l₂.Sublist pool) :
    listIntersect addr l₁ l₂ = inBoth pool l₁ l₂ ↔ PassesUp addr l₁ l₂ ∧ PassesUp addr l₂ l₁ := by
  have hinj' : ∀ x ∈ l₁, ∀ y ∈ l₂, addr x = addr y → x = y := fun x hx y hy =>
    hinj (h₁.subset hx) (h₂.subset hy)
  rw [← climbs_iff_passesUp, ← climbs_iff_passesUp, ← inBoth_eq_left hpool h₁,
    ← inBoth_eq_left hpool h₂, show inBoth pool l₂ l₁ = inBoth pool l₁ l₂ from inBoth_comm]
  constructor
  · intro h
    rw [← h]
    exact listIntersect_climbs hinj'
  · rintro ⟨hc₁, hc₂⟩
    refine (climbs_listIntersect hc₁ hc₂).eq_of_subset ?_ fun m hm => ?_
    · exact (hpool.sublist h₁).sublist (listIntersect_climbs hinj').1.sublist
    · obtain ⟨hm₁, hm₂⟩ := mem_listIntersect hinj' hm
      exact List.mem_filter.2 ⟨h₁.subset hm₁, by simp [hm₁, hm₂]⟩

end Arrival

/-! ## Merged lists -/

/-- The lists merged one after the other. -/
def mergeLists (addr : M → ℕ) (ls : List (List M)) : List M := ls.foldl (merge addr) []

theorem mergeLists_concat (ls : List (List M)) (l : List M) :
    mergeLists addr (ls ++ [l]) = (mergeLists addr ls).merge l (keyLe addr) := by
  rw [mergeLists, List.foldl_append]
  rfl

theorem mergeLists_perm (ls : List (List M)) : (mergeLists addr ls).Perm ls.flatten := by
  induction ls using List.reverseRecOn with
  | nil => exact List.Perm.refl _
  | append_singleton ls l ih =>
    rw [mergeLists_concat, List.flatten_append]
    refine (List.merge_perm_append _).trans (ih.append ?_)
    rw [List.flatten_singleton]

theorem mem_mergeLists {ls : List (List M)} {m : M} :
    m ∈ mergeLists addr ls ↔ ∃ l ∈ ls, m ∈ l := by
  rw [(mergeLists_perm ls).mem_iff, List.mem_flatten]

theorem sublist_mergeLists {ls : List (List M)} (hl : l ∈ ls) :
    l.Sublist (mergeLists addr ls) := by
  induction ls using List.reverseRecOn with
  | nil => simp at hl
  | append_singleton ls l' ih =>
    rw [mergeLists_concat]
    rcases List.mem_append.1 hl with hl | hl
    · exact (ih hl).trans (sublist_merge_left addr _ _)
    · rw [List.mem_singleton.1 hl]
      exact sublist_merge_right addr _ _

/-- What is at the front of one of the lists is climbed to. -/
theorem climbs_mergeLists {ls : List (List M)} (hl : l ∈ ls) (hes : es <+: l)
    (hne : ∀ l' ∈ ls, l' ≠ l → ∀ x ∈ l', ∀ e ∈ es, addr x ≠ addr e) (hls : ls.Nodup) :
    Climbs addr (mergeLists addr ls) es := by
  induction ls using List.reverseRecOn with
  | nil => simp at hl
  | append_singleton ls l' ih =>
    obtain ⟨hnodup, -, hdisj⟩ := List.nodup_append.1 hls
    rw [mergeLists_concat]
    rcases List.mem_append.1 hl with hl | hl
    · exact (ih hl (fun l'' hl'' => hne l'' (List.mem_append_left _ hl'')) hnodup).merge_left _
    · obtain rfl := List.mem_singleton.1 hl
      refine (Climbs.of_prefix hes).merge_right fun x hx e he => ?_
      obtain ⟨l'', hl'', hx⟩ := mem_mergeLists.1 hx
      exact hne l'' (List.mem_append_left _ hl'') (hdisj l'' hl'' l (by simp)) x hx e he

/-- Decreasing lists are merged as blocks. -/
theorem mergeLists_flat {ls : List (List M)} (hne : ∀ l ∈ ls, l ≠ [])
    (hdesc : ∀ l ∈ ls, Decreasing addr l) : ∃ bs : List (Block M),
      mergeLists addr ls = flat bs ∧ (∀ b ∈ bs, b.1 :: b.2 ∈ ls) ∧
        bs.Pairwise fun c d => addr c.1 ≤ addr d.1 := by
  induction ls using List.reverseRecOn with
  | nil => exact ⟨[], rfl, by simp, List.Pairwise.nil⟩
  | append_singleton ls l ih =>
    obtain ⟨bs, hflat, hmem, hsorted⟩ := ih (fun l' hl' => hne l' (List.mem_append_left _ hl'))
      fun l' hl' => hdesc l' (List.mem_append_left _ hl')
    have hlast : l ∈ ls ++ [l] := List.mem_append_right _ (List.mem_singleton_self l)
    obtain ⟨x, xs, rfl⟩ := List.exists_cons_of_ne_nil (hne l hlast)
    refine ⟨insertBlock addr (x, xs) bs, ?_, fun b hb => ?_, insertBlock_sorted hsorted⟩
    · rw [mergeLists_concat, hflat]
      exact merge_flat (b := (x, xs)) (hdesc _ hlast) fun c hc =>
        hdesc _ (List.mem_append_left _ (hmem c hc))
    · rcases mem_insertBlock.1 hb with rfl | hb
      · exact hlast
      · exact List.mem_append_left _ (hmem b hb)

/-- Where the lists are decreasing, so that what is climbed to is the front of one of them. -/
theorem prefix_of_climbs {ls : List (List M)} (hls : ls ≠ []) (hne : ∀ l ∈ ls, l ≠ [])
    (hdesc : ∀ l ∈ ls, Decreasing addr l) (hes : Decreasing addr es)
    (h : Climbs addr (mergeLists addr ls) es) : ∃ l ∈ ls, es <+: l := by
  cases es with
  | nil =>
    obtain ⟨l, ls, rfl⟩ := List.exists_cons_of_ne_nil hls
    exact ⟨l, List.mem_cons_self, List.nil_prefix⟩
  | cons e es =>
    obtain ⟨bs, hflat, hmem, hsorted⟩ := mergeLists_flat hne hdesc
    rw [hflat] at h
    obtain ⟨b, hb, hpre⟩ := h.prefix_block (fun b hb => hdesc _ (hmem b hb)) hsorted hes
    exact ⟨_, hmem b hb, hpre⟩

theorem mergeKeys_eq {key : M → Str} {map : MsgsMap M} (h : Indexed key pool map)
    {filter : List Str} (hkeys : ∀ k ∈ filter, k ∈ map.keys) :
    mergeKeys addr map filter =
      mergeLists addr (filter.map fun k => pool.filter fun m => key m = k) := by
  rw [mergeKeys, mergeLists, List.foldl_map]
  refine List.foldl_ext _ _ _ fun result k hk => ?_
  rw [(h k _).2 ⟨h.mem_keys.1 (hkeys k hk), rfl⟩]

end MsgViewer

/-! ## Two messages -/

open MsgViewer

theorem listIntersect_eq_first : listIntersect id [0, 1] [1] = inBoth [0, 1] [0, 1] [1] := by
  refine (listIntersect_eq_iff (by decide) (Set.injOn_id _) (List.Sublist.refl _) (by decide)).2
    ⟨?_, by simp [PassesUp, List.suffix_cons_iff]⟩
  intro x rest hsuf hx e he
  rcases List.suffix_cons_iff.1 hsuf with heq | hsuf
  · obtain ⟨rfl, rfl⟩ := List.cons.inj heq
    obtain rfl : 1 = e := by simpa using he
    decide
  · obtain ⟨rfl, -⟩ := List.cons.inj (List.suffix_cons_iff.1 hsuf |>.resolve_right (by simp))
    simp at hx

/-- The first message is stored after the second, and hides it. -/
theorem listIntersect_misses : Set.InjOn (1 - ·) {m | m ∈ [0, 1]} ∧ [0, 1].Nodup ∧
    [1].Sublist [0, 1] ∧ listIntersect (1 - ·) [0, 1] [1] ≠ inBoth [0, 1] [0, 1] [1] := by
  refine ⟨?_, by decide, by decide, ?_⟩
  · intro m hm n hn h
    have hm' : m = 0 ∨ m = 1 := by simpa using hm
    have hn' : n = 0 ∨ n = 1 := by simpa using hn
    simp only at h
    omega
  · rw [listIntersect, if_neg (by decide), if_pos (by decide), listIntersect]
    decide

end MfExtensions
