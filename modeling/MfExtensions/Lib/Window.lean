import Mathlib.Data.List.DropRight
import Mathlib.Order.Lattice
import Mathlib.Algebra.Order.Group.Int

/-!
# Sliding windows

A list grows at its end by elements whose keys never fall. To know, at any later time, whether at
least `n` elements are at most `T` older than that time it is enough to hold the last `n` of those
that are at most `T` older than the newest element (`Shows`).
-/

namespace Window

variable {α : Type*}

/-! ## The end of a list -/

section End

variable {l : List α} {p : α → Bool} {n k : ℕ}

theorem length_rtake : (l.rtake n).length = min n l.length := by
  rw [List.rtake, List.length_drop]
  omega

theorem rtake_rtake (h : k ≤ n) : (l.rtake n).rtake k = l.rtake k := by
  rw [List.rtake_eq_reverse_take_reverse, List.rtake_eq_reverse_take_reverse,
    List.rtake_eq_reverse_take_reverse, List.reverse_reverse, List.take_take, Nat.min_eq_left h]

/-- Where what satisfies `p` is followed by nothing that does not, dropping what does not is
filtering. -/
theorem dropWhile_eq_filter (h : l.Pairwise fun x y => p x = true → p y = true) :
    l.dropWhile (fun x => !p x) = l.filter p := by
  induction l with
  | nil => rfl
  | cons x xs ih =>
    obtain ⟨hx, hxs⟩ := List.pairwise_cons.1 h
    by_cases hp : p x = true
    · rw [List.dropWhile_cons_of_neg (by simp [hp]), List.filter_cons_of_pos hp,
        List.filter_eq_self.2 fun y hy => hx y hy hp]
    · rw [List.dropWhile_cons_of_pos (by simpa using hp), List.filter_cons_of_neg hp, ih hxs]

/-- The last `n` of what satisfies `p` are among the last `n`. -/
theorem rtake_filter_rtake (h : l.Pairwise fun x y => p x = true → p y = true) (n : ℕ) :
    ((l.rtake n).filter p).rtake n = (l.filter p).rtake n := by
  induction l using List.reverseRecOn generalizing n with
  | nil => simp
  | append_singleton xs x ih =>
    obtain ⟨hxs, -, hx⟩ := List.pairwise_append.1 h
    cases n with
    | zero => simp
    | succ n =>
      rw [List.rtake_concat_succ, List.filter_append, List.filter_append]
      by_cases hp : p x = true
      · rw [List.filter_cons_of_pos hp, List.filter_nil, List.rtake_concat_succ,
          List.rtake_concat_succ, ih hxs]
      · have hnone : ∀ y ∈ xs, ¬p y = true := fun y hy hpy =>
          hp (hx y hy x (List.mem_singleton.2 rfl) hpy)
        have hsub : xs.rtake n ⊆ xs := (List.drop_sublist _ xs).subset
        rw [List.filter_cons_of_neg hp, List.filter_nil, List.append_nil, List.append_nil,
          List.filter_eq_nil_iff.2 hnone, List.filter_eq_nil_iff.2 fun y hy => hnone y (hsub hy)]

end End

/-! ## Windows -/

variable (key : α → ℤ) (T : ℤ)

/-- The elements at most `T` older than `m`. -/
def recent (m : ℤ) (l : List α) : List α := l.filter fun x => m - T ≤ key x ∧ key x ≤ m

abbrev InOrder (l : List α) : Prop := l.Pairwise fun x y => key x ≤ key y

/-- The last `n` elements of any later window of `all` are those of the same window of `held`. -/
def Shows (n : ℕ) (held all : List α) : Prop :=
  ∀ m, (∀ x ∈ all, key x ≤ m) → (recent key T m held).rtake n = (recent key T m all).rtake n

variable {key T} {l held all : List α} {x : α} {m m' : ℤ} {n : ℕ}

theorem inOrder_concat (h : InOrder key l) (hx : ∀ y ∈ l, key y ≤ key x) :
    InOrder key (l ++ [x]) := by
  refine List.pairwise_append.2 ⟨h, List.pairwise_singleton _ _, fun y hy z hz => ?_⟩
  rw [List.mem_singleton.1 hz]
  exact hx y hy

theorem le_concat (hx : ∀ y ∈ l, key y ≤ key x) : ∀ y ∈ l ++ [x], key y ≤ key x := by
  intro y hy
  rcases List.mem_append.1 hy with hy | hy
  · exact hx y hy
  · rw [List.mem_singleton.1 hy]

theorem recent_append (l l' : List α) :
    recent key T m (l ++ l') = recent key T m l ++ recent key T m l' := List.filter_append ..

theorem recent_sublist : (recent key T m l).Sublist l := List.filter_sublist

/-- In a later window there is nothing that had left the window before. -/
theorem recent_recent (h : m ≤ m') (hl : ∀ x ∈ l, key x ≤ m) :
    recent key T m' (recent key T m l) = recent key T m' l := by
  rw [recent, recent, List.filter_filter]
  refine List.filter_congr fun x hx => ?_
  have hle := hl x hx
  simp only [← Bool.decide_and, decide_eq_decide]
  omega

/-- At a time no element is later than, the window is what follows the old elements. -/
theorem dropWhile_old (h : InOrder key l) (hl : ∀ x ∈ l, key x ≤ m) :
    l.dropWhile (fun x => decide (T < m - key x)) = recent key T m l := by
  have hold : (fun x => decide (T < m - key x)) = fun x => !decide (m - T ≤ key x) := by
    funext x
    rw [← decide_not, decide_eq_decide]
    omega
  have hmono : l.Pairwise fun x y => decide (m - T ≤ key x) = true →
      decide (m - T ≤ key y) = true := by
    refine h.imp fun hxy hx => ?_
    rw [decide_eq_true_eq] at hx ⊢
    omega
  rw [hold, dropWhile_eq_filter hmono]
  refine List.filter_congr fun x hx => ?_
  have hle := hl x hx
  rw [decide_eq_decide]
  omega

/-- What is in a window of times that are past stays in it as long as later elements do. -/
theorem recent_mono (h : InOrder key l) (hl : ∀ x ∈ l, key x ≤ m) :
    l.Pairwise fun x y => decide (m - T ≤ key x ∧ key x ≤ m) = true →
      decide (m - T ≤ key y ∧ key y ≤ m) = true := by
  refine (List.pairwise_iff_forall_sublist.2 fun {x y} hxy => ?_)
  have hle := List.pairwise_iff_forall_sublist.1 h hxy
  have hy := hl y (hxy.subset (List.mem_cons_of_mem x (List.mem_singleton.2 rfl)))
  simp only [decide_eq_true_eq]
  omega

theorem Shows.refl : Shows key T n l l := fun _ _ => rfl

/-- Both lists grow by an element. -/
theorem Shows.push (h : Shows key T n held all) (x : α) :
    Shows key T n (held ++ [x]) (all ++ [x]) := by
  intro m hm
  have hall : ∀ y ∈ all, key y ≤ m := fun y hy => hm y (List.mem_append_left _ hy)
  rw [recent_append, recent_append]
  cases n with
  | zero => rw [List.rtake_zero, List.rtake_zero]
  | succ n =>
    by_cases hwin : decide (m - T ≤ key x ∧ key x ≤ m) = true
    · have hone : recent key T m [x] = [x] := List.filter_cons_of_pos hwin
      rw [hone, List.rtake_concat_succ, List.rtake_concat_succ,
        ← rtake_rtake (Nat.le_succ n), h m hall, rtake_rtake (Nat.le_succ n)]
    · have hnone : recent key T m [x] = [] := List.filter_cons_of_neg hwin
      rw [hnone, List.append_nil, List.append_nil]
      exact h m hall

/-- Only the last `n` elements of the window are needed. -/
theorem Shows.trim (h : Shows key T n held all) (horder : InOrder key held)
    (hheld : ∀ y ∈ held, key y ≤ key x) (hx : x ∈ all) :
    Shows key T n ((recent key T (key x) held).rtake n) all := by
  intro m hm
  have hxm := hm x hx
  have hsub : (recent key T (key x) held).Sublist held := recent_sublist
  have hmono := recent_mono (T := T) (horder.sublist hsub)
    fun y hy => (hheld y (hsub.subset hy)).trans hxm
  rw [← h m hm, ← recent_recent hxm hheld]
  exact rtake_filter_rtake hmono n

/-- Whether a later window holds at least `n` elements can be told from what is held. -/
theorem Shows.le_length_iff (h : Shows key T n held all) (hm : ∀ x ∈ all, key x ≤ m) {k : ℕ}
    (hk : k ≤ n) : k ≤ (recent key T m held).length ↔ k ≤ (recent key T m all).length := by
  have hlength := congrArg List.length (h m hm)
  rw [length_rtake, length_rtake] at hlength
  omega

end Window
