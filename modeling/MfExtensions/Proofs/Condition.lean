import Mathlib.Data.List.Nodup
import MfExtensions.Condition

/-!
# What matching a message changes

Indices are given out in order, one for each name (`IdxMap.Numbered`), so that inserting a name
keeps the indices of the others. A message that does not pass a condition, or throws while it is
tested, leaves the hitmap as it was (`moves_passes`); one that passes is captured as the last thing
the condition does (`matchMsg_eq`).
-/

namespace MfExtensions

open Exec

/-! ## Indices -/

/-- The indices of a map are those below its size, each given to one name. -/
structure IdxMap.Numbered (m : IdxMap) : Prop where
  lt : ∀ e ∈ m.entries, e.2 < m.size
  inj : ∀ e ∈ m.entries, ∀ e' ∈ m.entries, e.2 = e'.2 → e = e'

namespace IdxMap

theorem numbered_empty : Numbered OrdMap.empty := ⟨by simp, by simp⟩

/-- Every index below the size has a name. -/
theorem Numbered.exists_entry {m : IdxMap} (hm : m.Numbered) {n : ℕ} (hn : n < m.size) :
    ∃ e ∈ m.entries, e.2 = n := by
  have hnd : m.entries.Nodup := m.sorted.imp fun h heq => absurd (heq ▸ h) (lt_irrefl _)
  have hsub : m.entries.map Prod.snd ⊆ List.range m.size := by
    intro i hi
    obtain ⟨e, he, rfl⟩ := List.mem_map.1 hi
    exact List.mem_range.2 (hm.lt e he)
  have hperm : (m.entries.map Prod.snd).Perm (List.range m.size) :=
    (List.subperm_of_subset (List.Nodup.map_on hm.inj hnd) hsub).perm_of_length_le
      (by rw [List.length_range, List.length_map, OrdMap.size])
  obtain ⟨e, he, heq⟩ := List.mem_map.1 (hperm.mem_iff.2 (List.mem_range.2 hn))
  exact ⟨e, he, heq⟩

theorem Numbered.insert {m : IdxMap} (hm : m.Numbered) {name : String}
    (h : m.find? name = none) : Numbered (m.insert name m.size) := by
  have hlt : ∀ e ∈ m.entries, e.2 ≠ m.size := fun e he => (hm.lt e he).ne
  refine ⟨fun e he => ?_, fun e he e' he' heq => ?_⟩
  · rw [OrdMap.size_insert h]
    rcases (OrdMap.mem_insert h).1 he with rfl | he
    · exact Nat.lt_succ_self _
    · exact (hm.lt e he).trans (Nat.lt_succ_self _)
  · rcases (OrdMap.mem_insert h).1 he with rfl | he <;>
      rcases (OrdMap.mem_insert h).1 he' with rfl | he'
    · rfl
    · exact absurd heq.symm (hlt e' he')
    · exact absurd heq (hlt e he)
    · exact hm.inj e he e' he' heq

/-- Two indices are the same just if the names are. -/
theorem Numbered.idx_eq_iff {m : IdxMap} (hm : m.Numbered) {n n' : String} {i i' : ℕ}
    (h : m.find? n = some i) (h' : m.find? n' = some i') : i = i' ↔ n = n' := by
  constructor
  · intro heq
    have hentry := hm.inj _ (OrdMap.find?_eq_some_iff.1 h) _ (OrdMap.find?_eq_some_iff.1 h') heq
    exact (Prod.mk.inj hentry).1
  · rintro rfl
    exact Option.some.inj (h.symm.trans h')

end IdxMap

namespace Hitmap

/-- The map a message leaves, the index it is given and whether the name is new. -/
theorem findIndex_cases (per : Bool) (glob : String) (m : IdxMap) (name : String) :
    (findIndex per glob m name).2.2 = false ∧ (findIndex per glob m name).1 = m ∨
    (findIndex per glob m name).2.2 = true ∧ ∃ n, m.find? n = none ∧
      (findIndex per glob m name).1 = m.insert n m.size := by
  unfold findIndex
  cases per with
  | false =>
    simp only [Bool.not_false, if_true]
    split_ifs with h
    · rw [OrdMap.isEmpty_iff] at h
      subst h
      exact .inr ⟨rfl, glob, rfl, rfl⟩
    · exact .inl ⟨rfl, rfl⟩
  | true =>
    simp only [Bool.not_true, Bool.false_eq_true, if_false]
    rcases hf : m.find? name with _ | i
    · exact .inr ⟨rfl, name, hf, rfl⟩
    · exact .inl ⟨rfl, rfl⟩

theorem findIndex_old {per : Bool} {glob name : String} {m : IdxMap}
    (h : (findIndex per glob m name).2.2 = false) : (findIndex per glob m name).1 = m := by
  rcases findIndex_cases per glob m name with ⟨-, hm⟩ | ⟨hn, -⟩
  · exact hm
  · rw [hn] at h
    cases h

theorem findIndex_numbered {m : IdxMap} (hm : m.Numbered) (per : Bool) (glob name : String) :
    (findIndex per glob m name).1.Numbered := by
  rcases findIndex_cases per glob m name with ⟨-, h⟩ | ⟨-, n, hn, h⟩ <;> rw [h]
  · exact hm
  · exact hm.insert hn

/-- A hitmap whose two index maps are numbered. -/
structure WF (h : Hitmap) : Prop where
  src : h.srcIdx.Numbered
  tgt : h.tgtIdx.Numbered

theorem capture_idx {k : CondConfig} {msg : Msg} {src tgt : String} {what : Smatch}
    {h h' : Hitmap} {change : Change} {te : Option CellEvent}
    (hc : capture k msg src tgt what h = some (h', change, te)) :
    h'.srcIdx = (findIndex k.perSource globalS h.srcIdx src).1 ∧
      h'.tgtIdx = (findIndex k.perTarget globalT h.tgtIdx tgt).1 ∧
      change.source = (findIndex k.perSource globalS h.srcIdx src).2.2 ∧
      change.target = (findIndex k.perTarget globalT h.tgtIdx tgt).2.2 := by
  simp only [capture, locate] at hc
  split at hc
  · simp at hc
  · simp only [Option.some.injEq, Prod.mk.injEq] at hc
    obtain ⟨rfl, rfl, -⟩ := hc
    refine ⟨?_, ?_, rfl, rfl⟩ <;> simp only [setCell] <;> split_ifs <;> rfl

end Hitmap

/-! ## Conditions -/

namespace Condition

variable (L : LexicalCast) (k : CondConfig) (msg : Msg)

/-- The condition with the strings of the message. -/
def fed (c : Condition) : Condition := { c with texts := msg.texts }

/-- `match` from the strings of the message to the capture: whether it is to be captured. -/
def passes : EStateM Err Condition Bool := do
  if msg.sev.toNat < k.severity.toNat then return false
  if !(← matchSrcs k msg.app) then return false
  if !(← matchCats k msg.cat) then return false
  if !(← matchBody k msg.text) then return false
  updateFields msg.app
  matchTest L k

theorem extractFields_apply (c : Condition) : extractFields msg c = .ok () (c.fed msg) := rfl

theorem matchMsg_eq : matchMsg L k msg = do
    extractFields msg
    if ← passes L k msg then return some (← capture k msg) else return none := by
  unfold matchMsg
  refine bind_congr fun _ => ?_
  funext c
  simp only [passes]
  split_ifs
  · rfl
  · simp only [bind_apply]
    rcases matchSrcs k msg.app c with ⟨_ | _, c₁⟩ | ⟨e, c₁⟩
    · rfl
    · simp only [Bool.not_true, Bool.false_eq_true, if_false, bind_apply]
      rcases matchCats k msg.cat c₁ with ⟨_ | _, c₂⟩ | ⟨e, c₂⟩
      · rfl
      · simp only [Bool.not_true, Bool.false_eq_true, if_false, bind_apply]
        rcases matchBody k msg.text c₂ with ⟨_ | _, c₃⟩ | ⟨e, c₃⟩
        · rfl
        · simp only [Bool.not_true, Bool.false_eq_true, if_false, bind_apply]
          rcases updateFields msg.app c₃ with ⟨_, c₄⟩ | ⟨e, c₄⟩
          · simp only
            rcases matchTest L k c₄ with ⟨_ | _, c₅⟩ | ⟨e, c₅⟩ <;> rfl
          · rfl
        · rfl
      · rfl
    · rfl

/-- The hitmap and the message counter are not changed. -/
def Kept (c c' : Condition) : Prop :=
  c'.hitmap = c.hitmap ∧ c'.catchedMessages = c.catchedMessages

theorem pre_kept : Pre Kept := (Pre.frame hitmap).and (Pre.frame catchedMessages)

section Temporaries

variable {P : Condition → Condition → Prop} (hP : Pre P)
  (hwhat : ∀ (c : Condition) (what : Smatch), P c { c with what })
include hP hwhat

theorem moves_matchAny (any : Bool) (es : List Regex) (buffer : Buffer) (s : String) :
    Moves P (matchAny any es buffer s) := by
  unfold matchAny
  split_ifs
  · exact moves_pure hP _
  · split
    · exact moves_bind hP (moves_modify fun c => hwhat c _) fun _ => moves_pure hP _
    · exact moves_pure hP _

theorem moves_matchBody (htgt : ∀ (c : Condition) (tgt : String), P c { c with tgt })
    (bdy : String) : Moves P (matchBody k bdy) := by
  have hset : ∀ w : Smatch, Moves P (do
      let tgt ← orThrow (w.sub { bdy } k.targetGroup)
      modify fun c => { c with tgt }
      return true : EStateM Err Condition Bool) := fun w =>
    moves_bind hP (moves_orThrow hP _) fun _ =>
      moves_bind hP (moves_modify fun c => htgt c _) fun _ => moves_pure hP _
  unfold matchBody
  cases k.matchAny with
  | true => exact moves_pure hP _
  | false =>
    cases k.e.regexSearch bdy with
    | none => exact moves_pure hP _
    | some w =>
      refine moves_bind hP (moves_modify fun c => hwhat c _) fun _ => ?_
      cases k.perTarget with
      | false => exact moves_pure hP _
      | true =>
        simp only [if_true]
        split_ifs
        · exact moves_bind hP (moves_throw hP _) fun _ => hset _
        · exact hset _

theorem moves_passes (htgt : ∀ (c : Condition) (tgt : String), P c { c with tgt })
    (hlast : ∀ c (lastSrc lastTgt : String) (lastWhat : Smatch),
      P c { c with lastSrc, lastTgt, lastWhat }) : Moves P (passes L k msg) := by
  have hret : Moves P (pure false : EStateM Err Condition Bool) := moves_pure hP _
  unfold passes
  split_ifs
  · exact hret
  · refine moves_bind hP (moves_matchAny hP hwhat _ _ _ _) fun b => ?_
    cases b with
    | false => exact hret
    | true =>
      refine moves_bind hP (moves_matchAny hP hwhat _ _ _ _) fun b => ?_
      cases b with
      | false => exact hret
      | true =>
        refine moves_bind hP (moves_matchBody k hP hwhat htgt _) fun b => ?_
        cases b with
        | false => exact hret
        | true =>
          refine moves_bind hP (moves_modify fun c => hlast c _ _ _) fun _ => ?_
          exact moves_get_bind fun c => moves_orThrow hP _ c

end Temporaries

/-- Until a message is captured the hitmap and the counter stay as they are. -/
theorem kept_passes : Moves Kept (passes L k msg) :=
  moves_passes L k msg pre_kept (fun _ _ => ⟨rfl, rfl⟩) (fun _ _ => ⟨rfl, rfl⟩)
    fun _ _ _ _ => ⟨rfl, rfl⟩

theorem texts_passes : Moves (fun c c' => c'.texts = c.texts) (passes L k msg) :=
  moves_passes L k msg (Pre.frame texts) (fun _ _ => rfl) (fun _ _ => rfl) fun _ _ _ _ => rfl

theorem capture_apply (c : Condition) :
    capture k msg c = match c.hitmap.capture k msg msg.app c.tgt c.what with
      | none => .error .emptyList c
      | some (hitmap, change, te) =>
        .ok (change, te) { c with hitmap, catchedMessages := c.catchedMessages + 1 } := by
  simp only [capture, bind_apply, get_apply]
  cases c.hitmap.capture k msg msg.app c.tgt c.what <;> rfl

/-- A matched message either leaves the hitmap alone or is captured by it. -/
theorem matchMsg_cases (c : Condition) :
    (∃ c', Kept c c' ∧ (matchMsg L k msg c = .ok none c' ∨
      ∃ err, matchMsg L k msg c = .error err c')) ∨
    ∃ c₁ hitmap change te, Kept c c₁ ∧
      c.hitmap.capture k msg msg.app c₁.tgt c₁.what = some (hitmap, change, te) ∧
      matchMsg L k msg c = .ok (some (change, te))
        { c₁ with hitmap, catchedMessages := c.catchedMessages + 1 } := by
  simp only [matchMsg_eq, bind_apply, extractFields_apply]
  rcases hp : passes L k msg (c.fed msg) with ⟨_ | _, c₁⟩ | ⟨err, c₁⟩
  · have hkept := (kept_passes L k msg).of_ok hp
    exact .inl ⟨c₁, hkept, .inl rfl⟩
  · have hkept := (kept_passes L k msg).of_ok hp
    change Kept c c₁ at hkept
    simp only [if_true, bind_apply, capture_apply, hkept.1, hkept.2]
    rcases hcap : c.hitmap.capture k msg msg.app c₁.tgt c₁.what with _ | ⟨hitmap, change, te⟩
    · exact .inl ⟨c₁, hkept, .inr ⟨_, rfl⟩⟩
    · exact .inr ⟨c₁, hitmap, change, te, hkept, hcap, rfl⟩
  · have hkept := (kept_passes L k msg).of_error hp
    exact .inl ⟨c₁, hkept, .inr ⟨err, rfl⟩⟩

/-- The strings of the condition are those of the message put to it, whatever comes of it. -/
theorem matchMsg_texts (c : Condition) : (final (matchMsg L k msg) c).texts = msg.texts := by
  have hmoves : Moves (fun c c' => c'.texts = c.texts) (do
      if ← passes L k msg then return some (← capture k msg) else return none :
        EStateM Err Condition (Option (Change × Option Hitmap.CellEvent))) := by
    have hframe := Pre.frame texts
    refine moves_bind hframe (texts_passes L k msg) fun b => ?_
    cases b with
    | false => exact moves_pure hframe _
    | true =>
      refine moves_bind hframe (fun c => ?_) fun p => moves_pure hframe _
      rw [final, capture_apply]
      rcases c.hitmap.capture k msg msg.app c.tgt c.what with _ | ⟨hitmap, change, te⟩ <;> rfl
  rw [matchMsg_eq, final_bind_ok (extractFields_apply msg c)]
  exact hmoves (c.fed msg)

theorem matchTest_state {c c' : Condition} {b : Bool} (h : matchTest L k c = .ok b c') :
    c' = c := by
  simp only [matchTest, bind_apply, get_apply] at h
  cases hr : TestPrimary.evaluate L c (.expr k.testExpr) with
  | error err => simp [hr] at h
  | ok b' =>
    rw [hr, orThrow_ok] at h
    cases h
    rfl

/-- The fields of the last message are those of a message that passes. -/
theorem passes_fields {c c' : Condition} (h : passes L k msg c = .ok true c') :
    c'.lastSrc = msg.app ∧ c'.lastTgt = c'.tgt ∧ c'.lastWhat = c'.what := by
  unfold passes at h
  split_ifs at h
  · simp at h
  · obtain ⟨b, c₁, -, h⟩ := bind_ok.1 h
    cases b with
    | false => simp at h
    | true =>
      obtain ⟨b, c₂, -, h⟩ := bind_ok.1 h
      cases b with
      | false => simp at h
      | true =>
        obtain ⟨b, c₃, -, h⟩ := bind_ok.1 h
        cases b with
        | false => simp at h
        | true =>
          obtain ⟨⟨⟩, c₄, hfields, h⟩ := bind_ok.1 h
          cases hfields
          rw [matchTest_state L k h]
          exact ⟨rfl, rfl, rfl⟩

/-- A message that is captured is the last thing the condition has seen. -/
theorem matchMsg_captured {c c' : Condition} {p : Change × Option Hitmap.CellEvent}
    (h : matchMsg L k msg c = .ok (some p) c') : c'.lastSrc = msg.app ∧
      c.hitmap.capture k msg msg.app c'.lastTgt c'.lastWhat = some (c'.hitmap, p.1, p.2) := by
  simp only [matchMsg_eq, bind_apply (x := extractFields msg), extractFields_apply] at h
  obtain ⟨b, c₁, hpass, h⟩ := bind_ok.1 h
  cases b with
  | false => simp at h
  | true =>
    obtain ⟨hsrc, htgt, hwhat⟩ := passes_fields L k msg hpass
    have hkept := (kept_passes L k msg).of_ok hpass
    change Kept c c₁ at hkept
    simp only [if_true, bind_apply, capture_apply, hkept.1] at h
    rcases hcap : c.hitmap.capture k msg msg.app c₁.tgt c₁.what with _ | ⟨hitmap, change, te⟩ <;>
      rw [hcap] at h
    · simp at h
    · cases h
      refine ⟨hsrc, ?_⟩
      simp only [htgt, hwhat]
      exact hcap

end Condition

end MfExtensions
