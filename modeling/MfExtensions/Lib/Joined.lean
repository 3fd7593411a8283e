import Mathlib.Data.List.Basic

/-!
# Joined lists

Lists joined with a separator are told apart by the text they make if the separator has an element
that is in none of them (`Joined.inj`).
-/

namespace Joined

variable {α : Type} {sep : List α} {c : α}

theorem mem_intercalate (hc : c ∈ sep) (l l' : List α) (ls : List (List α)) :
    c ∈ sep.intercalate (l :: l' :: ls) := by
  rw [List.intercalate_cons_cons]
  exact List.mem_append_left _ (List.mem_append_right _ hc)

variable [DecidableEq α]

theorem takeWhile_of_notMem {l r : List α} (hl : c ∉ l) : (l ++ c :: r).takeWhile (· ≠ c) = l := by
  rw [List.takeWhile_append_of_pos fun x hx => by simpa using fun h : x = c => hl (h ▸ hx)]
  simp

theorem dropWhile_of_notMem {l r : List α} (hl : c ∉ l) :
    (l ++ c :: r).dropWhile (· ≠ c) = c :: r := by
  rw [List.dropWhile_append_of_pos fun x hx => by simpa using fun h : x = c => hl (h ▸ hx)]
  simp

/-- What stands before the first `c` of a text, and after it. -/
theorem append_cons_inj {l l' r r' : List α} (hl : c ∉ l) (hl' : c ∉ l')
    (h : l ++ c :: r = l' ++ c :: r') : l = l' ∧ r = r' := by
  have heq : l = l' := by rw [← takeWhile_of_notMem (r := r) hl, h, takeWhile_of_notMem hl']
  subst heq
  exact ⟨rfl, by simpa using h⟩

omit [DecidableEq α] in
/-- An end of a text that has no `c` stands behind the last one. -/
theorem suffix_append_cons_iff {l r t : List α} (ht : c ∉ t) : t <:+ l ++ c :: r ↔ t <:+ r := by
  constructor
  · intro h
    rcases List.suffix_or_suffix_of_suffix h (List.suffix_append l (c :: r)) with h | h
    · rcases List.suffix_cons_iff.1 h with rfl | h
      · exact absurd List.mem_cons_self ht
      · exact h
    · exact absurd (h.subset List.mem_cons_self) ht
  · intro h
    exact h.trans ((List.suffix_cons c r).trans (List.suffix_append l (c :: r)))

theorem inj (hc : c ∈ sep) : ∀ {ls ls' : List (List α)}, ls ≠ [] → ls' ≠ [] →
    (∀ l ∈ ls, c ∉ l) → (∀ l ∈ ls', c ∉ l) → sep.intercalate ls = sep.intercalate ls' → ls = ls'
  | [], _, h, _, _, _, _ => absurd rfl h
  | _, [], _, h, _, _, _ => absurd rfl h
  | [l], [l'], _, _, _, _, h => by simpa using h
  | [l], l' :: m' :: ls', _, _, hl, _, h => by
    have hmem := mem_intercalate hc l' m' ls'
    rw [← h, List.intercalate_singleton] at hmem
    exact absurd hmem (hl l List.mem_cons_self)
  | l :: m :: ls, [l'], _, _, _, hl', h => by
    have hmem := mem_intercalate hc l m ls
    rw [h, List.intercalate_singleton] at hmem
    exact absurd hmem (hl' l' List.mem_cons_self)
  | l :: m :: ls, l' :: m' :: ls', _, _, hl, hl', h => by
    obtain ⟨s, t, hsep, hs⟩ := List.eq_append_cons_of_mem hc
    rw [List.forall_mem_cons] at hl hl'
    have hsplit : (l ++ s) ++ c :: (t ++ sep.intercalate (m :: ls)) =
        (l' ++ s) ++ c :: (t ++ sep.intercalate (m' :: ls')) := by
      simpa [List.intercalate_cons_cons, hsep] using h
    obtain ⟨hfirst, hrest⟩ := append_cons_inj (by simp [hl.1, hs]) (by simp [hl'.1, hs]) hsplit
    rw [List.append_cancel_right hfirst, inj hc (List.cons_ne_nil _ _) (List.cons_ne_nil _ _) hl.2
      hl'.2 (List.append_cancel_left hrest)]

end Joined
