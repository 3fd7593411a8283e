import Mathlib.Order.Basic
import MfExtensions.Engine

/-!
# The notification lists

A merged list names each rule once, in increasing order (`mergeNotifyList_sorted`): the rules that
one of the conditions notifies (`mem_mergeNotifyList`).
-/

namespace List

variable {α : Type} [DecidableEq α]

theorem mem_destutter'_ne {a : α} : ∀ {l : List α} {b : α},
    a ∈ l.destutter' (· ≠ ·) b ↔ a = b ∨ a ∈ l
  | [], b => by simp
  | c :: l, b => by
    rw [destutter'_cons]
    split_ifs with h
    · rw [mem_cons, mem_destutter'_ne, mem_cons]
    · simp only [ne_eq, not_not] at h
      subst h
      rw [mem_destutter'_ne, mem_cons, or_self_left]

/-- Dropping repetitions drops no member. -/
theorem mem_destutter_ne {a : α} : ∀ {l : List α}, a ∈ l.destutter (· ≠ ·) ↔ a ∈ l
  | [] => by simp
  | b :: l => by rw [destutter_cons', mem_destutter'_ne, mem_cons]

end List

namespace MfExtensions

variable {R : Type} [LinearOrder R]

theorem mem_foldr_orderedInsert {a : R} {l : List R} : ∀ {ns : List R},
    a ∈ ns.foldr (List.orderedInsert (· ≤ ·)) l ↔ a ∈ ns ∨ a ∈ l
  | [] => by simp
  | n :: ns => by
    rw [List.foldr_cons, List.mem_orderedInsert, mem_foldr_orderedInsert, List.mem_cons, or_assoc]

theorem foldr_orderedInsert_sorted {l : List R} (h : l.Pairwise (· ≤ ·)) : ∀ ns : List R,
    (ns.foldr (List.orderedInsert (· ≤ ·)) l).Pairwise (· ≤ ·)
  | [] => h
  | n :: ns => List.Pairwise.orderedInsert n _ (foldr_orderedInsert_sorted h ns)

theorem destutter_sorted {l : List R} (h : l.Pairwise (· ≤ ·)) :
    (l.destutter (· ≠ ·)).Pairwise (· < ·) := by
  have hle : (l.destutter (· ≠ ·)).Pairwise (· ≤ ·) :=
    h.sublist (List.destutter_sublist (· ≠ ·) l)
  have hne := List.isChain_destutter (· ≠ ·) l
  refine List.IsChain.pairwise ?_
  generalize l.destutter (· ≠ ·) = m at hle hne
  induction m with
  | nil => exact List.IsChain.nil
  | cons a m ih =>
    cases m with
    | nil => exact List.IsChain.singleton a
    | cons b m =>
      rw [List.isChain_cons_cons] at hne ⊢
      obtain ⟨ha, hm⟩ := List.pairwise_cons.1 hle
      exact ⟨lt_of_le_of_ne (ha b List.mem_cons_self) hne.1, ih hm hne.2⟩

namespace Config

variable {C : Type} [DecidableEq C] (cfg : Config C R) (type : NotifyT)

theorem mem_mergeNotifyList {r : R} : ∀ (cs : List C) (l : List R),
    r ∈ cfg.mergeNotifyList type l cs ↔ r ∈ l ∨ ∃ c ∈ cs, r ∈ cfg.notifyList type c
  | [], l => by simp [mergeNotifyList]
  | c :: cs, l => by
    refine (mem_mergeNotifyList cs
      (((cfg.notifyList type c).foldr (List.orderedInsert (· ≤ ·)) l).destutter (· ≠ ·))).trans ?_
    rw [List.mem_destutter_ne, mem_foldr_orderedInsert, List.exists_mem_cons_iff, or_assoc,
      or_left_comm]

theorem mergeNotifyList_sorted : ∀ (cs : List C) {l : List R}, l.Pairwise (· < ·) →
    (cfg.mergeNotifyList type l cs).Pairwise (· < ·)
  | [], _, h => h
  | c :: cs, l, h => by
    refine mergeNotifyList_sorted cs ?_
    exact destutter_sorted (foldr_orderedInsert_sorted (h.imp le_of_lt) _)

/-- A merged list depends on which conditions notify only, not on their order. -/
theorem mergeNotifyList_congr {cs cs' : List C} (h : ∀ c, c ∈ cs' ↔ c ∈ cs) :
    cfg.mergeNotifyList type [] cs' = cfg.mergeNotifyList type [] cs := by
  refine (cfg.mergeNotifyList_sorted type cs' .nil).eq_of_mem_iff
    (cfg.mergeNotifyList_sorted type cs .nil) fun r => ?_
  simp only [mem_mergeNotifyList, h]

theorem mem_notifyList {r : R} {c : C} : r ∈ cfg.notifyList type c ↔
    match type with
    | .status => c ∈ (cfg.rule r).conditions
    | .source => (c, .source) ∈ (cfg.rule r).domainExpr.args
    | .target => (c, .target) ∈ (cfg.rule r).domainExpr.args := by
  rw [notifyList, List.mem_insertionSort, List.mem_filter]
  cases type <;> simp [cfg.mem_rmap r]

end Config

end MfExtensions
