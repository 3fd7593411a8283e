import Mathlib.Data.String.Basic
import Mathlib.Data.List.Perm.Basic

/-!
# Ordered maps

A map kept as the list of its entries in strictly increasing key order, so that two maps with
the same entries are equal and walking the list is walking the map in key order. `insert` keeps
the entry a key already has.
-/

/-- A finite map with its entries in increasing key order. -/
structure OrdMap (κ υ : Type) [LinearOrder κ] where
  entries : List (κ × υ)
  sorted : entries.Pairwise fun a b => a.1 < b.1

namespace OrdMap

variable {κ υ : Type} [LinearOrder κ]

def empty : OrdMap κ υ := ⟨[], List.Pairwise.nil⟩

instance : Inhabited (OrdMap κ υ) := ⟨empty⟩

def size (m : OrdMap κ υ) : ℕ := m.entries.length

def isEmpty (m : OrdMap κ υ) : Bool := m.entries.isEmpty

/-- The value of key `k`. -/
def find? (m : OrdMap κ υ) (k : κ) : Option υ :=
  (m.entries.find? fun e => e.1 = k).map Prod.snd

/-- Put `(k, v)` at its place in the order, unless `k` already has an entry. -/
def insertEntry (k : κ) (v : υ) : List (κ × υ) → List (κ × υ)
  | [] => [(k, v)]
  | e :: es =>
    if k < e.1 then (k, v) :: e :: es
    else if k = e.1 then e :: es
    else e :: insertEntry k v es

theorem mem_insertEntry {k : κ} {v : υ} :
    ∀ {es : List (κ × υ)} {e : κ × υ}, e ∈ insertEntry k v es → e = (k, v) ∨ e ∈ es
  | [], e, h => by simpa [insertEntry] using h
  | a :: es, e, h => by
    unfold insertEntry at h
    split_ifs at h
    · simpa using h
    · exact .inr h
    · rcases List.mem_cons.1 h with rfl | h
      · exact .inr List.mem_cons_self
      · exact (mem_insertEntry h).imp_right (List.mem_cons_of_mem _)

theorem insertEntry_sorted (k : κ) (v : υ) :
    ∀ {es : List (κ × υ)}, (es.Pairwise fun a b => a.1 < b.1) →
      (insertEntry k v es).Pairwise fun a b => a.1 < b.1
  | [], _ => by simp [insertEntry]
  | a :: es, h => by
    obtain ⟨ha, hes⟩ := List.pairwise_cons.1 h
    unfold insertEntry
    split_ifs with h1 h2
    · refine List.pairwise_cons.2 ⟨fun e he => ?_, h⟩
      rcases List.mem_cons.1 he with rfl | he
      · exact h1
      · exact h1.trans (ha e he)
    · exact h
    · refine List.pairwise_cons.2 ⟨fun e he => ?_, insertEntry_sorted k v hes⟩
      rcases mem_insertEntry he with rfl | he
      · exact lt_of_le_of_ne (not_lt.1 h1) (Ne.symm h2)
      · exact ha e he

/-- Add an entry for `k`; the entry `k` already has is kept. -/
def insert (m : OrdMap κ υ) (k : κ) (v : υ) : OrdMap κ υ :=
  ⟨insertEntry k v m.entries, insertEntry_sorted k v m.sorted⟩

/-- Change the value of `k`, if it has one. -/
def modify (m : OrdMap κ υ) (k : κ) (f : υ → υ) : OrdMap κ υ where
  entries := m.entries.map fun e => if e.1 = k then (e.1, f e.2) else e
  sorted := by
    refine List.pairwise_map.2 (m.sorted.imp fun {a b} h => ?_)
    split_ifs <;> exact h

/-- Remove the entry of `k`. -/
def erase (m : OrdMap κ υ) (k : κ) : OrdMap κ υ where
  entries := m.entries.filter fun e => e.1 ≠ k
  sorted := m.sorted.filter _

/-- The keys in increasing order. -/
def keys (m : OrdMap κ υ) : List κ := m.entries.map Prod.fst

@[ext] theorem ext {m m' : OrdMap κ υ} (h : m.entries = m'.entries) : m = m' := by
  cases m; cases m'; cases h; rfl

@[simp] theorem entries_empty : (empty : OrdMap κ υ).entries = [] := rfl

@[simp] theorem size_empty : (empty : OrdMap κ υ).size = 0 := rfl

@[simp] theorem find?_empty (k : κ) : (empty : OrdMap κ υ).find? k = none := rfl

theorem isEmpty_iff {m : OrdMap κ υ} : m.isEmpty = true ↔ m = empty := by
  simp only [isEmpty, List.isEmpty_iff]
  exact ⟨fun h => ext h, fun h => by rw [h]; rfl⟩

theorem size_eq_zero {m : OrdMap κ υ} : m.size = 0 ↔ m = empty := by
  simp only [size, List.length_eq_zero_iff]
  exact ⟨fun h => ext h, fun h => by rw [h]; rfl⟩

/-- Two entries of one key are the same entry. -/
theorem entry_unique {m : OrdMap κ υ} {k : κ} {v v' : υ} (h : (k, v) ∈ m.entries)
    (h' : (k, v') ∈ m.entries) : v = v' := by
  have key_eq : ∀ {es : List (κ × υ)}, (es.Pairwise fun a b => a.1 < b.1) →
      (k, v) ∈ es → (k, v') ∈ es → v = v' := by
    intro es hs h h'
    induction hs with
    | nil => simp at h
    | cons ha _ ih =>
      rcases List.mem_cons.1 h with rfl | h₁ <;> rcases List.mem_cons.1 h' with he | h₂
      · exact (congrArg Prod.snd he).symm
      · exact absurd (ha (k, v') h₂) (lt_irrefl k)
      · subst he
        exact absurd (ha (k, v) h₁) (lt_irrefl k)
      · exact ih h₁ h₂
  exact key_eq m.sorted h h'

theorem find?_eq_some_iff {m : OrdMap κ υ} {k : κ} {v : υ} :
    m.find? k = some v ↔ (k, v) ∈ m.entries := by
  simp only [find?, Option.map_eq_some_iff]
  constructor
  · rintro ⟨⟨k', v'⟩, h, rfl⟩
    have hk := List.find?_some h
    simp only [decide_eq_true_eq] at hk
    subst hk
    exact List.mem_of_find?_eq_some h
  · intro h
    rcases hf : m.entries.find? fun e => e.1 = k with _ | ⟨k', v'⟩
    · rw [List.find?_eq_none] at hf
      exact absurd (hf _ h) (by simp)
    · have hk := List.find?_some hf
      have hmem := List.mem_of_find?_eq_some hf
      simp only [decide_eq_true_eq] at hk
      subst hk
      exact ⟨(k', v'), hf, entry_unique hmem h⟩

theorem find?_eq_none_iff {m : OrdMap κ υ} {k : κ} :
    m.find? k = none ↔ ∀ v, (k, v) ∉ m.entries := by
  rw [Option.eq_none_iff_forall_not_mem]
  simp only [Option.mem_def, find?_eq_some_iff]

theorem insertEntry_perm {k : κ} {v : υ} :
    ∀ {es : List (κ × υ)}, (∀ v', (k, v') ∉ es) → (insertEntry k v es).Perm ((k, v) :: es)
  | [], _ => by simp [insertEntry]
  | a :: es, h => by
    unfold insertEntry
    split_ifs with h1 h2
    · exact List.Perm.refl _
    · exact absurd List.mem_cons_self (by rw [h2] at h; exact h a.2)
    · exact ((insertEntry_perm fun v' hv => h v' (List.mem_cons_of_mem _ hv)).cons a).trans
        (List.Perm.swap _ _ _)

/-- A search that the new entry does not answer finds what it found before. -/
theorem find?_insertEntry {k : κ} {v : υ} {p : κ × υ → Bool} (h : p (k, v) = false) :
    ∀ es : List (κ × υ), (insertEntry k v es).find? p = es.find? p
  | [] => by simp [insertEntry, h]
  | a :: es => by
    unfold insertEntry
    split_ifs
    · rw [List.find?_cons, h]
    · rfl
    · rw [List.find?_cons, List.find?_cons, find?_insertEntry h es]

theorem mem_insert {m : OrdMap κ υ} {k : κ} {v : υ} (h : m.find? k = none) {e : κ × υ} :
    e ∈ (m.insert k v).entries ↔ e = (k, v) ∨ e ∈ m.entries := by
  rw [insert, (insertEntry_perm (find?_eq_none_iff.1 h)).mem_iff, List.mem_cons]

theorem size_insert {m : OrdMap κ υ} {k : κ} {v : υ} (h : m.find? k = none) :
    (m.insert k v).size = m.size + 1 := by
  rw [size, insert, (insertEntry_perm (find?_eq_none_iff.1 h)).length_eq, List.length_cons, size]

theorem mem_keys {m : OrdMap κ υ} {k : κ} : k ∈ m.keys ↔ (m.find? k).isSome := by
  rw [Option.isSome_iff_exists, keys, List.mem_map]
  constructor
  · rintro ⟨⟨k, v⟩, h, rfl⟩
    exact ⟨v, find?_eq_some_iff.2 h⟩
  · rintro ⟨v, h⟩
    exact ⟨(k, v), find?_eq_some_iff.1 h, rfl⟩

/-- Adding an entry for a key that has one changes nothing. -/
theorem insert_of_find? {m : OrdMap κ υ} {k : κ} {w : υ} (h : m.find? k = some w) (v : υ) :
    m.insert k v = m := by
  have hsame : ∀ {es : List (κ × υ)}, (es.Pairwise fun a b => a.1 < b.1) → (k, w) ∈ es →
      insertEntry k v es = es := by
    intro es hs hmem
    induction hs with
    | nil => simp at hmem
    | @cons a es ha _ ih =>
      rcases List.mem_cons.1 hmem with rfl | hmem
      · rw [insertEntry, if_neg (lt_irrefl k), if_pos rfl]
      · have hlt := ha _ hmem
        rw [insertEntry, if_neg (not_lt_of_gt hlt), if_neg (ne_of_gt hlt), ih hmem]
  exact ext (hsame m.sorted (find?_eq_some_iff.1 h))

theorem find?_insert (m : OrdMap κ υ) (k : κ) (v : υ) (k' : κ) :
    (m.insert k v).find? k' = if k' = k then some ((m.find? k).getD v) else m.find? k' := by
  cases hk : m.find? k with
  | some w =>
    rw [insert_of_find? hk]
    split_ifs with h
    · rw [h, hk, Option.getD_some]
    · rfl
  | none =>
    ext w
    rw [find?_eq_some_iff, mem_insert hk]
    split_ifs with h
    · rw [h, Option.getD_none, Option.some_inj]
      constructor
      · rintro (heq | hmem)
        · exact (congrArg Prod.snd heq).symm
        · exact absurd hmem (find?_eq_none_iff.1 hk w)
      · rintro rfl
        exact .inl rfl
    · rw [find?_eq_some_iff]
      constructor
      · rintro (heq | hmem)
        · exact absurd (congrArg Prod.fst heq) h
        · exact hmem
      · exact .inr

theorem mem_keys_insert {m : OrdMap κ υ} {k k' : κ} {v : υ} :
    k' ∈ (m.insert k v).keys ↔ k' = k ∨ k' ∈ m.keys := by
  rw [mem_keys, find?_insert, mem_keys]
  by_cases h : k' = k <;> simp [h]

theorem keys_nodup (m : OrdMap κ υ) : m.keys.Nodup := by
  rw [keys, List.Nodup, List.pairwise_map]
  exact m.sorted.imp fun h => ne_of_lt h

@[simp] theorem keys_modify (m : OrdMap κ υ) (k : κ) (f : υ → υ) :
    (m.modify k f).keys = m.keys := by
  rw [keys, modify, List.map_map]
  refine List.map_congr_left fun e _ => ?_
  show (if e.1 = k then (e.1, f e.2) else e).1 = e.1
  split_ifs <;> rfl

theorem find?_modify (m : OrdMap κ υ) (k : κ) (f : υ → υ) (k' : κ) :
    (m.modify k f).find? k' = if k' = k then (m.find? k).map f else m.find? k' := by
  have hfind : ∀ es : List (κ × υ), ((es.map fun e => if e.1 = k then (e.1, f e.2) else e).find?
      fun e => e.1 = k').map Prod.snd =
      ((es.find? fun e => e.1 = k').map Prod.snd).map fun v => if k' = k then f v else v := by
    intro es
    induction es with
    | nil => rfl
    | cons e es ih =>
      by_cases he : e.1 = k'
      · by_cases hk : e.1 = k
        · simp [he ▸ hk, he]
        · simp [he, he ▸ hk]
      · have hne : (if e.1 = k then (e.1, f e.2) else e).1 ≠ k' := by
          split_ifs <;> exact he
        rw [List.map_cons, List.find?_cons_of_neg (by simpa using hne),
          List.find?_cons_of_neg (by simpa using he), ih]
  rw [find?, modify, hfind]
  split_ifs with h
  · rw [h]
    rfl
  · exact Option.map_id'

theorem find?_erase (m : OrdMap κ υ) (k k' : κ) :
    (m.erase k).find? k' = if k' = k then none else m.find? k' := by
  ext v
  rw [find?_eq_some_iff, erase, List.mem_filter]
  split_ifs with h
  · simp [h]
  · rw [← find?_eq_some_iff]
    simp [h]

end OrdMap
