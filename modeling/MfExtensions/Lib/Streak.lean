import Mathlib.Data.List.DropRight
import Mathlib.Data.Nat.Find

/-!
# Bad entries since the last streak

A history grows at its end by good and bad entries. `lastStreak` is the last point of it at which
`n` good entries in a row were completed, and `badSince` counts the bad ones from there on. When an
entry is added it is enough to know that count and the number of good entries at the end
(`badSince_concat_good`, `badSince_concat_bad`).
-/

namespace Streak

variable {α : Type*} (good : α → Bool) (n : ℕ)

/-- The `n` entries before the point `p` are good. -/
def EndsAt (l : List α) (p : ℕ) : Prop :=
  n ≤ p ∧ p ≤ l.length ∧ ∀ x ∈ (l.take p).drop (p - n), good x = true

instance (l : List α) : DecidablePred (EndsAt good n l) :=
  fun _ => inferInstanceAs (Decidable (_ ∧ _ ∧ _))

/-- The last point at which a streak of `n` is completed, the start if there is none. -/
def lastStreak (l : List α) : ℕ := Nat.findGreatest (EndsAt good n l) l.length

def badSince (l : List α) : ℕ := (l.drop (lastStreak good n l)).countP (!good ·)

/-- The number of good entries at the end. -/
def streak (l : List α) : ℕ := (l.rtakeWhile good).length

variable {good n} {l : List α} {x : α} {p : ℕ}

theorem streak_concat_good (hx : good x = true) : streak good (l ++ [x]) = streak good l + 1 := by
  unfold streak
  rw [List.rtakeWhile_concat_pos good l x hx, List.length_append, List.length_singleton]

theorem streak_concat_bad (hx : good x = false) : streak good (l ++ [x]) = 0 := by
  unfold streak
  rw [List.rtakeWhile_concat_neg good l x (by rw [hx]; exact Bool.false_ne_true), List.length_nil]

/-- Whether a point ends a streak is not changed by what comes after it. -/
theorem endsAt_concat_of_le (hp : p ≤ l.length) :
    EndsAt good n (l ++ [x]) p ↔ EndsAt good n l p := by
  unfold EndsAt
  rw [List.take_append_of_le_length hp, List.length_append]
  constructor
  · rintro ⟨hn, -, hgood⟩
    exact ⟨hn, hp, hgood⟩
  · rintro ⟨hn, -, hgood⟩
    exact ⟨hn, by omega, hgood⟩

theorem endsAt_concat : EndsAt good (n + 1) (l ++ [x]) (l.length + 1) ↔
    good x = true ∧ EndsAt good n l l.length := by
  unfold EndsAt
  have htake : (l ++ [x]).take (l.length + 1) = l ++ [x] :=
    List.take_of_length_le (by rw [List.length_append, List.length_singleton])
  have hdrop : (l ++ [x]).drop (l.length + 1 - (n + 1)) = l.drop (l.length - n) ++ [x] := by
    rw [Nat.add_sub_add_right, List.drop_append_of_le_length (by omega)]
  rw [htake, hdrop, List.take_length, List.length_append, List.length_singleton]
  simp only [List.mem_append, List.mem_singleton, or_imp, forall_and, forall_eq]
  constructor
  · rintro ⟨hn, -, hgood, hx⟩
    exact ⟨hx, by omega, le_rfl, hgood⟩
  · rintro ⟨hx, hn, -, hgood⟩
    exact ⟨by omega, le_rfl, hgood, hx⟩

/-- The end of the history ends a streak just if there are `n` good entries at the end. -/
theorem endsAt_length_iff : EndsAt good n l l.length ↔ n ≤ streak good l := by
  induction l using List.reverseRecOn generalizing n with
  | nil =>
    constructor
    · exact fun h => h.1.trans (Nat.zero_le _)
    · intro h
      obtain rfl : n = 0 := Nat.le_zero.1 h
      exact ⟨le_rfl, le_rfl, fun x hx => absurd hx List.not_mem_nil⟩
  | append_singleton l x ih =>
    cases n with
    | zero =>
      refine ⟨fun _ => Nat.zero_le _, fun _ => ⟨Nat.zero_le _, le_rfl, fun y hy => ?_⟩⟩
      rw [List.take_length, Nat.sub_zero, List.drop_length] at hy
      exact absurd hy List.not_mem_nil
    | succ n =>
      rw [List.length_append, List.length_singleton, endsAt_concat, ih]
      cases hx : good x with
      | true =>
        rw [streak_concat_good hx, Nat.add_le_add_iff_right]
        exact and_iff_right rfl
      | false =>
        rw [streak_concat_bad hx]
        exact ⟨fun h => absurd h.1 Bool.false_ne_true, fun h => absurd h (by omega)⟩

theorem endsAt_concat_iff :
    EndsAt good n (l ++ [x]) (l.length + 1) ↔ n ≤ streak good (l ++ [x]) := by
  rw [← endsAt_length_iff, List.length_append, List.length_singleton]

theorem lastStreak_le : lastStreak good n l ≤ l.length := Nat.findGreatest_le l.length

theorem lastStreak_concat : lastStreak good n (l ++ [x]) =
    if EndsAt good n (l ++ [x]) (l.length + 1) then l.length + 1 else lastStreak good n l := by
  have hold : ∀ m ≤ l.length, Nat.findGreatest (EndsAt good n (l ++ [x])) m =
      Nat.findGreatest (EndsAt good n l) m := by
    intro m hm
    induction m with
    | zero => rfl
    | succ m ih =>
      rw [Nat.findGreatest_succ, Nat.findGreatest_succ, ih (by omega)]
      simp only [endsAt_concat_of_le hm]
  unfold lastStreak
  rw [List.length_append, List.length_singleton, Nat.findGreatest_succ, hold l.length le_rfl]

/-- After `n` good entries in a row nothing bad counts. -/
theorem badSince_of_le (h : n ≤ streak good l) : badSince good n l = 0 := by
  have hlast : lastStreak good n l = l.length := Nat.findGreatest_eq (endsAt_length_iff.2 h)
  unfold badSince
  rw [hlast, List.drop_length, List.countP_nil]

/-- An entry that completes no streak is counted if it is bad. -/
theorem badSince_concat (hend : ¬n ≤ streak good (l ++ [x])) :
    badSince good n (l ++ [x]) = badSince good n l + if good x then 0 else 1 := by
  unfold badSince
  rw [lastStreak_concat, if_neg (endsAt_concat_iff.not.2 hend),
    List.drop_append_of_le_length lastStreak_le, List.countP_append, List.countP_singleton]
  cases good x <;> rfl

theorem badSince_concat_good (hx : good x = true) : badSince good n (l ++ [x]) =
    if n ≤ streak good l + 1 then 0 else badSince good n l := by
  rw [← streak_concat_good hx]
  split_ifs with hn
  · exact badSince_of_le hn
  · rw [badSince_concat hn, if_pos hx, Nat.add_zero]

theorem badSince_concat_bad (hn : 0 < n) (hx : good x = false) :
    badSince good n (l ++ [x]) = badSince good n l + 1 := by
  have hend : ¬n ≤ streak good (l ++ [x]) := by
    rw [streak_concat_bad hx]
    omega
  rw [badSince_concat hend, hx]
  rfl

end Streak
