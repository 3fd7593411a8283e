import Mathlib.Data.List.TakeWhile
import MfExtensions.Lib.Joined

/-!
# Texts of lines

A text of lines that each end in a separator, cut at any point, is a number of whole lines and a
part of the next one (`Lines.cut`).
-/

namespace Lines

variable {α : Type} (nl : α)

def unlines (ls : List (List α)) : List α := ls.flatMap (· ++ [nl])

@[simp] theorem unlines_nil : unlines nl [] = [] := rfl

@[simp] theorem unlines_cons (l : List α) (ls : List (List α)) :
    unlines nl (l :: ls) = l ++ nl :: unlines nl ls := by
  simp [unlines]

@[simp] theorem unlines_append (ls ls' : List (List α)) :
    unlines nl (ls ++ ls') = unlines nl ls ++ unlines nl ls' := by
  simp [unlines]

theorem length_le_unlines (ls : List (List α)) : ls.length ≤ (unlines nl ls).length := by
  induction ls with
  | nil => simp
  | cons l ls ih =>
    simp only [unlines_cons, List.length_append, List.length_cons]
    omega

theorem infix_unlines {l : List α} {ls : List (List α)} (h : l ∈ ls) : l <:+: unlines nl ls := by
  obtain ⟨a, b, rfl⟩ := List.append_of_mem h
  exact ⟨unlines nl a, nl :: unlines nl b, by simp⟩

/-- Every text is a number of lines and what is left after the last separator. -/
theorem exists_lines : ∀ s : List α, ∃ ls p, s = unlines nl ls ++ p ∧ (∀ l ∈ ls, nl ∉ l) ∧ nl ∉ p
  | [] => ⟨[], [], rfl, by simp, by simp⟩
  | c :: s => by
    obtain ⟨ls, p, rfl, hls, hp⟩ := exists_lines s
    by_cases hc : c = nl
    · subst hc
      exact ⟨[] :: ls, p, rfl, List.forall_mem_cons.mpr ⟨by simp, hls⟩, hp⟩
    · rcases ls with _ | ⟨l, ls⟩
      · exact ⟨[], c :: p, rfl, hls, by simp [Ne.symm hc, hp]⟩
      · rw [List.forall_mem_cons] at hls
        refine ⟨(c :: l) :: ls, p, by simp, List.forall_mem_cons.mpr ⟨?_, hls.2⟩, hp⟩
        simp [Ne.symm hc, hls.1]

theorem infix_append_cons {s l r : List α} (hs : nl ∉ s) (h : s <:+: l ++ nl :: r) :
    s <:+: l ∨ s <:+: r := by
  obtain ⟨a, b, heq⟩ := h
  rcases List.append_eq_append_iff.mp heq with ⟨t, hl, -⟩ | ⟨t, hl, hr⟩
  · exact .inl ⟨a, t, hl.symm⟩
  rcases List.append_eq_append_iff.mp hl with ⟨u, hl', hs'⟩ | ⟨u, ha, ht⟩
  · -- the end of `s` is before the separator, which it would hold
    rcases t with _ | ⟨c, t⟩
    · exact .inl ⟨a, [], by rw [hs', hl']; simp⟩
    · obtain ⟨rfl, -⟩ := List.cons.inj hr
      exact absurd (by simp [hs']) hs
  · rcases u with _ | ⟨c, u⟩
    · rcases s with _ | ⟨d, s⟩
      · exact .inl (List.nil_infix)
      · rw [ht] at hr
        obtain ⟨rfl, -⟩ := List.cons.inj hr
        exact absurd List.mem_cons_self hs
    · rw [ht] at hr
      obtain ⟨-, hr⟩ := List.cons.inj hr
      exact .inr ⟨u, b, hr.symm⟩

/-- What stands in the text without the separator stands in a line. -/
theorem exists_of_infix {s : List α} (hs : nl ∉ s) (hne : s ≠ []) : ∀ {ls : List (List α)},
    s <:+: unlines nl ls → ∃ l ∈ ls, s <:+: l
  | [], h => absurd (List.infix_nil.mp h) hne
  | l :: ls, h => by
    rw [unlines_cons] at h
    rcases infix_append_cons nl hs h with h | h
    · exact ⟨l, List.mem_cons_self, h⟩
    · obtain ⟨l', hl', h⟩ := exists_of_infix hs hne h
      exact ⟨l', List.mem_cons_of_mem l hl', h⟩

/-- A cut within the text leaves whole lines and a part of the next one before it. -/
theorem cut : ∀ (ls : List (List α)) {n : ℕ}, n < (unlines nl ls).length →
    ∃ a p q b, ls = a ++ (p ++ q) :: b ∧ (unlines nl ls).take n = unlines nl a ++ p ∧
      (unlines nl ls).drop n = unlines nl (q :: b)
  | [], n, hn => by simp at hn
  | l :: ls, n, hn => by
    by_cases hl : n ≤ l.length
    · refine ⟨[], l.take n, l.drop n, ls, by simp, ?_, ?_⟩
      · rw [unlines_cons, List.take_append_of_le_length hl, unlines_nil, List.nil_append]
      · rw [unlines_cons, List.drop_append_of_le_length hl, unlines_cons]
    · obtain ⟨k, rfl⟩ := Nat.exists_eq_add_of_le (show l.length + 1 ≤ n by omega)
      have hk : k < (unlines nl ls).length := by
        simp only [unlines_cons, List.length_append, List.length_cons] at hn
        omega
      obtain ⟨a, p, q, b, heq, htake, hdrop⟩ := cut ls hk
      have hcut : unlines nl (l :: ls) = (l ++ [nl]) ++ unlines nl ls := by simp
      have hlen : l.length + 1 = (l ++ [nl]).length := by simp
      refine ⟨l :: a, p, q, b, by rw [heq, List.cons_append], ?_, ?_⟩
      · rw [hcut, hlen, List.take_length_add_append, htake]
        simp
      · rw [hcut, hlen, List.drop_length_add_append, hdrop]

variable [DecidableEq α] {nl}

theorem takeWhile_whole {p : List α} (hp : nl ∉ p) : p.takeWhile (· ≠ nl) = p := by
  rw [List.takeWhile_eq_self_iff]
  intro x hx
  simpa using fun h : x = nl => hp (h ▸ hx)

end Lines
