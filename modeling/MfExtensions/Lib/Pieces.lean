import Mathlib.Algebra.GroupWithZero.Nat
import Mathlib.Data.List.TakeDrop

/-!
# A list in pieces

A list is taken piece by piece: each time there is room for some elements, and as many of the rest
are taken as fit. `cut` are the pieces. They are the beginning of the list, in order
(`flatten_cut`), and if there is always room for one element, a piece is empty only after all of the
list (`eq_nil_iff`).
-/

namespace Pieces

variable {α : Type*}

def cut : List ℕ → List α → List (List α)
  | [], _ => []
  | room :: rooms, l => l.take room :: cut rooms (l.drop room)

theorem forall₂_cut (rooms : List ℕ) (l : List α) :
    List.Forall₂ (fun room p => p.length ≤ room) rooms (cut rooms l) := by
  induction rooms generalizing l with
  | nil => exact .nil
  | cons room rooms ih => exact .cons (List.length_take_le room l) (ih (l.drop room))

theorem flatten_cut (rooms : List ℕ) (l : List α) : (cut rooms l).flatten = l.take rooms.sum := by
  induction rooms generalizing l with
  | nil => rfl
  | cons room rooms ih => rw [cut, List.flatten_cons, ih, List.sum_cons, List.take_add]

theorem take_cut (i : ℕ) (rooms : List ℕ) (l : List α) :
    (cut rooms l).take i = cut (rooms.take i) l := by
  induction rooms generalizing i l with
  | nil => simp only [cut, List.take_nil]
  | cons room rooms ih =>
    cases i with
    | zero => rfl
    | succ i => rw [cut, List.take_succ_cons, ih, List.take_succ_cons, cut]

theorem getElem?_cut (rooms : List ℕ) (l : List α) (i : ℕ) :
    (cut rooms l)[i]? = rooms[i]?.map fun room => (l.drop (rooms.take i).sum).take room := by
  induction rooms generalizing i l with
  | nil => rfl
  | cons room rooms ih =>
    cases i with
    | zero => rfl
    | succ i =>
      rw [cut, List.getElem?_cons_succ, List.getElem?_cons_succ, List.take_succ_cons, List.sum_cons,
        ih, List.drop_drop]

theorem eq_nil_iff {rooms : List ℕ} (hroom : ∀ room ∈ rooms, 0 < room) {l p : List α} {i : ℕ}
    (hp : (cut rooms l)[i]? = some p) : p = [] ↔ ((cut rooms l).take i).flatten = l := by
  rw [getElem?_cut] at hp
  obtain ⟨room, hi, rfl⟩ := Option.map_eq_some_iff.1 hp
  have hpos := hroom room (List.mem_of_getElem? hi)
  rw [take_cut, flatten_cut, List.take_eq_nil_iff, List.drop_eq_nil_iff, List.take_eq_self_iff]
  omega

end Pieces
