import MfExtensions.Lib.Window

/-!
# Bursts

A list has a burst if some window holds at least `n` of its elements. Where the elements come in the
order of their keys, one makes a burst if and only if the window that ends with it holds as many
(`has_concat_iff`). Of a list of named elements, each name has its own list.
-/

namespace Burst

open Window

variable {α N : Type*}

section Has

variable (key : α → ℤ) (T : ℤ) (n : ℕ)

def Has (l : List α) : Prop := ∃ m, n ≤ (recent key T m l).length

variable {key T n} {l : List α} {a : α}

theorem not_has_nil (hn : n ≠ 0) : ¬Has key T n [] := by
  rintro ⟨m, hm⟩
  exact hn (Nat.le_zero.1 hm)

theorem Has.ne_nil (hn : n ≠ 0) (h : Has key T n l) : l ≠ [] := by
  rintro rfl
  exact not_has_nil hn h

theorem Has.append (h : Has key T n l) (l' : List α) : Has key T n (l ++ l') := by
  obtain ⟨m, hm⟩ := h
  refine ⟨m, hm.trans ?_⟩
  rw [recent_append, List.length_append]
  exact Nat.le_add_right _ _

/-- A window that holds an element, none being later, holds no more than the window that ends with
the element. -/
theorem length_recent_le {m : ℤ} (hle : ∀ b ∈ l, key b ≤ key a) (hin : m - T ≤ key a ∧ key a ≤ m) :
    (recent key T m (l ++ [a])).length ≤ (recent key T (key a) (l ++ [a])).length := by
  unfold recent
  rw [← List.countP_eq_length_filter, ← List.countP_eq_length_filter]
  refine List.countP_mono_left fun b hb hwin => ?_
  have hle := le_concat hle b hb
  simp only [decide_eq_true_eq] at hwin ⊢
  omega

theorem recent_concat_outside {m : ℤ} (hout : ¬(m - T ≤ key a ∧ key a ≤ m)) :
    recent key T m (l ++ [a]) = recent key T m l := by
  have hnone : recent key T m [a] = [] := List.filter_cons_of_neg (by simpa using hout)
  rw [recent_append, hnone, List.append_nil]

/-- After an element, none being later, there is a burst if there was one or the window that ends
with it holds one. -/
theorem has_concat_iff (hle : ∀ b ∈ l, key b ≤ key a) :
    Has key T n (l ++ [a]) ↔ Has key T n l ∨ n ≤ (recent key T (key a) (l ++ [a])).length := by
  constructor
  · rintro ⟨m, hm⟩
    by_cases hin : m - T ≤ key a ∧ key a ≤ m
    · exact .inr (hm.trans (length_recent_le hle hin))
    · rw [recent_concat_outside hin] at hm
      exact .inl ⟨m, hm⟩
  · rintro (h | h)
    · exact h.append [a]
    · exact ⟨key a, h⟩

end Has

section Named

variable [DecidableEq N] (name : α → N)

/-- The elements of a name. -/
def named (x : N) (l : List α) : List α := l.filter (name · = x)

variable {name} {l : List α} {a : α} {x : N}

theorem mem_named {b : α} : b ∈ named name x l ↔ b ∈ l ∧ name b = x := by
  rw [named, List.mem_filter, decide_eq_true_eq]

theorem named_concat (l : List α) (a : α) : named name x (l ++ [a]) =
    if name a = x then named name x l ++ [a] else named name x l := by
  unfold named
  split_ifs with h <;> simp [h]

/-- Only the names of the elements are looked at. -/
theorem named_congr {M : Type*} [DecidableEq M] {name' : α → M} {y : M}
    (h : ∀ b ∈ l, name b = x ↔ name' b = y) : named name x l = named name' y l :=
  List.filter_congr fun b hb => decide_eq_decide.2 (h b hb)

end Named

end Burst
