import MfExtensions.CellRun
import MfExtensions.Lib.Machine
import MfExtensions.Lib.Window
import MfExtensions.Proofs.Invariants

/-!
# What a hit does to a cell

A hit of a cell that is on for good replaces the first message held by the new one. Any other hit
holds the last messages of those that have not expired, and assigns the status anew
(`step_hit`). It never meets an empty list if the timespan is not negative and the trigger count
not zero, and the first hit does otherwise (`hit_never_empty_iff`). Every cell of an engine lives
such a life (`Passed.cell_reaches`).
-/

namespace MfExtensions

open Machine

/-- A condition that asks for at least one message, in a time that is not negative. -/
structure CondConfig.Sane (k : CondConfig) : Prop where
  count : sizeT k.tc ≠ 0
  timespan : 0 ≤ k.ts

/-! ## One hit -/

namespace Cell

variable {k : CondConfig} {msg : Msg} {w : Smatch} {x : Cell}

/-- What is left of a list when the messages too old for `latest` are popped. -/
def unexpired (k : CondConfig) (latest : ℤ) (ms : List Msg) : List Msg :=
  ms.dropWhile fun m => decide (k.ts < latest - m.time)

theorem popExpired_eq (k : CondConfig) (latest : ℤ) : ∀ ms : List Msg,
    popExpired latest k.ts ms =
      if unexpired k latest ms = [] then none else some (unexpired k latest ms)
  | [] => rfl
  | m :: ms => by
    rw [popExpired, unexpired, List.dropWhile_cons]
    by_cases hold : k.ts < latest - m.time
    · rw [if_pos hold, popExpired_eq k latest ms, if_pos (decide_eq_true hold)]
      rfl
    · simp [hold]

/-- The new message is not too old for itself. -/
theorem unexpired_append (hts : 0 ≤ k.ts) (ms : List Msg) :
    unexpired k msg.time (ms ++ [msg]) = unexpired k msg.time ms ++ [msg] := by
  have hnew : [msg].dropWhile (fun m => decide (k.ts < msg.time - m.time)) = [msg] := by
    rw [List.dropWhile_cons_of_neg]
    simpa using hts
  unfold unexpired
  rw [List.dropWhile_append, hnew]
  split_ifs with h
  · rw [List.isEmpty_iff.1 h, List.nil_append]
  · rfl

/-- What a hit holds of the messages before it. -/
def kept (k : CondConfig) (latest : ℤ) (ms : List Msg) : List Msg :=
  popExcess (sizeT k.tc - 1) (unexpired k latest ms)

theorem kept_sublist (latest : ℤ) (ms : List Msg) : (kept k latest ms).Sublist ms :=
  (List.drop_sublist _ _).trans (List.dropWhile_sublist _)

theorem popExcess_unexpired (hk : k.Sane) (ms : List Msg) :
    popExcess (sizeT k.tc) (unexpired k msg.time (ms ++ [msg])) = kept k msg.time ms ++ [msg] := by
  obtain ⟨n, hn⟩ := Nat.exists_eq_succ_of_ne_zero hk.count
  rw [unexpired_append hk.timespan, kept, hn, Nat.succ_sub_one]
  exact List.rtake_concat_succ ..

variable (msg w) in
/-- A hit of a cell that is not on for good. -/
theorem hit_of_sane (hk : k.Sane) (hidle : (x.on && k.persistent) = false) :
    ∃ y te flipped, x.hit k msg w = some (y, te, flipped) ∧
      y.msgs = kept k msg.time x.msgs ++ [msg] ∧
      y.on = (k.atLeast && decide (y.msgs.length = sizeT k.tc)) ∧
      (k.atLeast = false → te = nextEvent k.ts y.msgs ∧ te = some y.tEvent) := by
  have hne : unexpired k msg.time (x.msgs ++ [msg]) ≠ [] := by
    rw [unexpired_append hk.timespan]
    simp
  obtain ⟨m, ms, hms⟩ : ∃ m ms, kept k msg.time x.msgs ++ [msg] = m :: ms :=
    List.exists_cons_of_ne_nil (by simp)
  unfold hit
  simp only [hidle, Bool.false_eq_true, if_false, popExpired_eq k, if_neg hne,
    popExcess_unexpired hk]
  by_cases hfull : (kept k msg.time x.msgs ++ [msg]).length = sizeT k.tc
  · rw [if_pos hfull]
    simp only [hms, nextEvent] at hfull ⊢
    exact ⟨_, _, _, rfl, rfl, by simp [hfull], fun _ => ⟨rfl, rfl⟩⟩
  · rw [if_neg hfull]
    by_cases hleast : k.atLeast = true
    · simp only [hleast, Bool.not_true, Bool.false_eq_true, if_false]
      exact ⟨_, _, _, rfl, rfl, by simpa using hfull, fun h => by simp at h⟩
    · rw [Bool.not_eq_true] at hleast
      simp only [hleast, Bool.not_false, if_true, hms, nextEvent]
      exact ⟨_, _, _, rfl, rfl, by simp, fun _ => ⟨rfl, rfl⟩⟩

/-- A hit of a cell that is on for good. -/
theorem hit_of_persistent (hidle : (x.on && k.persistent) = true) : x.hit k msg w =
    some ({ x with what := w, msgs := (x.msgs ++ [msg]).tail }, none, false) := by
  unfold hit
  simp [hidle]

/-- The first hit of a cell of any other condition meets an empty list. -/
theorem hit_empty (hk : ¬k.Sane) : ({} : Cell).hit k msg w = none := by
  unfold hit
  simp only [Bool.false_and, Bool.false_eq_true, if_false, List.nil_append]
  by_cases hts : 0 ≤ k.ts
  · have hcount : sizeT k.tc = 0 := by
      by_contra hne
      exact hk ⟨hne, hts⟩
    have hfresh : popExpired msg.time k.ts [msg] = some [msg] := by
      rw [popExpired, if_neg (by omega)]
    simp [hfresh, hcount, popExcess, nextEvent]
  · have hfresh : popExpired msg.time k.ts [msg] = none := by
      rw [popExpired, if_pos (by omega), popExpired]
    simp [hfresh]

end Cell

/-! ## One step -/

namespace CellRun

variable {k : CondConfig} {msg : Msg} {w : Smatch} {s s' : CellRun} {clock : ℤ}

/-- What a hit that succeeds does. -/
structure Hit (k : CondConfig) (msg : Msg) (s s' : CellRun) : Prop where
  captured : s'.captured = s.captured ++ [msg]
  persistent : (s.cell.on && k.persistent) = true →
    s'.cell.on = true ∧ s'.cell.msgs = (s.cell.msgs ++ [msg]).tail
  msgs : (s.cell.on && k.persistent) = false →
    s'.cell.msgs = Cell.kept k msg.time s.cell.msgs ++ [msg]
  on : (s.cell.on && k.persistent) = false →
    s'.cell.on = (k.atLeast && decide (s'.cell.msgs.length = sizeT k.tc))

theorem step_of_hit {cell : Cell} {te : Option ℤ} {flipped : Bool}
    (h : s.cell.hit k msg w = some (cell, te, flipped)) : step k (.hit msg w) s = some {
      cell
      captured := s.captured ++ [msg]
      scheduled := s.scheduled ++ te.toList
      clock := max s.clock msg.time } := by
  rw [step, h]

theorem step_hit (hk : k.Sane) (msg : Msg) (w : Smatch) (s : CellRun) :
    ∃ s', step k (.hit msg w) s = some s' ∧ Hit k msg s s' := by
  by_cases hidle : (s.cell.on && k.persistent) = true
  · refine ⟨_, step_of_hit (Cell.hit_of_persistent hidle), rfl, fun _ => ⟨?_, rfl⟩,
      fun h => ?_, fun h => ?_⟩
    · exact (Bool.and_eq_true_iff.1 hidle).1
    · rw [hidle] at h
      cases h
    · rw [hidle] at h
      cases h
  · have hfalse := Bool.not_eq_true _ ▸ hidle
    obtain ⟨y, te, flipped, hhit, hmsgs, hon, -⟩ := Cell.hit_of_sane msg w hk hfalse
    exact ⟨_, step_of_hit hhit, rfl, fun h => absurd h hidle, fun _ => hmsgs, fun _ => hon⟩

theorem hit_of_step (hk : k.Sane) (hs : step k (.hit msg w) s = some s') : Hit k msg s s' := by
  obtain ⟨s₁, hs₁, hhit⟩ := step_hit hk msg w s
  rw [hs, Option.some_inj] at hs₁
  exact hs₁ ▸ hhit

/-- An event changes the status only, and not that of a cell that is on for good. -/
theorem event_fields (t : ℤ) (x : Cell) : (x.event k t).1.msgs = x.msgs ∧
    ((x.on && k.persistent) = true → (x.event k t).1.on = true) := by
  unfold Cell.event
  dsimp only
  split_ifs
  · exact ⟨rfl, fun h => (Bool.and_eq_true_iff.1 h).1⟩
  · exact ⟨rfl, fun h => (Bool.and_eq_true_iff.1 h).1⟩
  · exact ⟨rfl, fun _ => rfl⟩
  · exact ⟨rfl, fun h => (Bool.and_eq_true_iff.1 h).1⟩
  · exact ⟨rfl, fun h => (Bool.and_eq_true_iff.1 h).2⟩

/-! ## The list is never empty -/

theorem sizeT_toInt (n : Int32) : sizeT n.toInt = 0 ↔ n = 0 := by
  have hlo := n.le_toInt
  have hhi := n.toInt_lt
  rw [← Int32.toInt_inj, sizeT]
  simp only [Int32.toInt_zero]
  omega

/-- The conditions that `init_engine` accepts and that ask for at least one message. -/
theorem sane_rated_iff {k k' : CondConfig} {r : RateBlock} (h : k.rated r = .ok k') :
    k'.Sane ↔ 0 ≤ r.timespan ∧ r.occurAtMost ≠ some (-1) ∧ r.atLeast ≠ some 0 := by
  obtain ⟨⟨occur, atLeast⟩, hoccur, hk'⟩ := Exec.except_bind_ok.1 h
  obtain rfl : _ = k' := Except.ok.inj hk'
  have hsane : ∀ n : Int32, (CondConfig.Sane
      { k with tc := n.toInt, atLeast := atLeast, ts := r.timespan.toInt }) ↔
        n ≠ 0 ∧ 0 ≤ r.timespan := fun n =>
    ⟨fun h => ⟨(sizeT_toInt n).not.1 h.count, Int32.le_iff_toInt_le.2 h.timespan⟩,
      fun h => ⟨(sizeT_toInt n).not.2 h.1, Int32.le_iff_toInt_le.1 h.2⟩⟩
  have hsucc : ∀ n : Int32, n + 1 ≠ 0 ↔ n ≠ -1 := by
    intro n
    rw [not_iff_not]
    grind
  rw [hsane]
  unfold RateBlock.occur at hoccur
  rcases hmost : r.occurAtMost with _ | n <;> rcases hleast : r.atLeast with _ | m <;>
    rw [hmost, hleast] at hoccur <;> simp at hoccur
  · obtain ⟨rfl, rfl⟩ := hoccur
    simp [triggerCount]
  · obtain ⟨rfl, rfl⟩ := hoccur
    simp [triggerCount, and_comm]
  · obtain ⟨rfl, rfl⟩ := hoccur
    simp [triggerCount, hsucc, and_comm]

/-- Whatever is done to a cell, no hit reads the front of an empty list, if and only if the rate is
of a timespan that is not negative and of a count that does not ask for zero messages. -/
theorem hit_never_empty_iff {k k' : CondConfig} {r : RateBlock} (h : k.rated r = .ok k')
    (clock : ℤ) :
    (∀ s, Reaches (step k') (start clock) s → ∀ msg w, step k' (.hit msg w) s ≠ none) ↔
      0 ≤ r.timespan ∧ r.occurAtMost ≠ some (-1) ∧ r.atLeast ≠ some 0 := by
  rw [← sane_rated_iff h]
  constructor
  · intro hall
    by_contra hk
    refine hall _ .refl ⟨.info, "", "", "", 0⟩ {} ?_
    rw [step, start, Cell.hit_empty hk]
  · intro hk s _ msg w
    obtain ⟨s', hs', -⟩ := step_hit hk msg w s
    simp [hs']

end CellRun

/-- A condition that every message meets, without a rate. -/
def everyMsg : CondConfig where
  name := "every"
  severity := .debug
  anySrc := true
  matchAny := true
  e := .literal ""
  persistent := false

/-- A message of the second `t`. -/
def msgAt (t : ℤ) : Msg := ⟨.info, "x", "", "", t⟩

theorem hit_never_empty_second :
    ∃ k, everyMsg.rated { occurence := some 2, timespan := 10 } = .ok k ∧
      ∀ s, Reaches (CellRun.step k) (CellRun.start 0) s → ∀ msg w,
        CellRun.step k (.hit msg w) s ≠ none :=
  ⟨_, rfl, (CellRun.hit_never_empty_iff (k := everyMsg)
    (r := { occurence := some 2, timespan := 10 }) rfl 0).2 (by decide)⟩

/-- With a count of zero, or a timespan that is negative, the first message empties the list and
its front is read. -/
theorem first_hit_empty : (∃ k, everyMsg.rated { occurence := some 0 } = .ok k ∧
      CellRun.step k (.hit (msgAt 0) {}) (CellRun.start 0) = none) ∧
    (∃ k, everyMsg.rated { occurAtMost := some (-1) } = .ok k ∧
      CellRun.step k (.hit (msgAt 0) {}) (CellRun.start 0) = none) ∧
    ∃ k, everyMsg.rated { timespan := -1 } = .ok k ∧
      CellRun.step k (.hit (msgAt 0) {}) (CellRun.start 0) = none :=
  ⟨⟨_, rfl, rfl⟩, ⟨_, rfl, rfl⟩, _, rfl, rfl⟩

/-! ## The cells of an engine -/

/-- The cell is what hits, events and resets made of a new one. -/
def Cell.Lived (k : CondConfig) (x : Cell) : Prop :=
  ∃ s, Reaches (CellRun.step k) (CellRun.start 0) s ∧ s.cell = x

namespace Cell

variable {k : CondConfig} {x y : Cell}

theorem lived_new : Lived k {} := ⟨_, .refl, rfl⟩

theorem Lived.hit {msg : Msg} {w : Smatch} {te : Option ℤ} {flipped : Bool} (h : Lived k x)
    (hit : x.hit k msg w = some (y, te, flipped)) : Lived k y := by
  obtain ⟨s, hs, rfl⟩ := h
  exact ⟨_, hs.next trivial (CellRun.step_of_hit hit), rfl⟩

theorem Lived.event (h : Lived k x) (t : ℤ) : Lived k (x.event k t).1 := by
  obtain ⟨s, hs, rfl⟩ := h
  exact ⟨_, hs.next (a := .event t) trivial rfl, rfl⟩

theorem Lived.reset (h : Lived k x) : Lived k x.reset := by
  obtain ⟨s, hs, rfl⟩ := h
  exact ⟨_, hs.next (a := .reset) trivial rfl, rfl⟩

end Cell

/-- Every cell of the hitmap has lived. -/
def Hitmap.Lived (k : CondConfig) (h : Hitmap) : Prop := ∀ i j, (h.cells i j).Lived k

namespace Hitmap

variable {k : CondConfig} {h h' : Hitmap}

theorem Lived.setCell (hh : h.Lived k) {x : Cell} (hx : x.Lived k) (s t : ℕ) :
    (h.setCell s t x).Lived k := by
  intro i j
  show (if i = s ∧ j = t then x else h.cells i j).Lived k
  split_ifs
  · exact hx
  · exact hh i j

theorem Lived.resize (hh : h.Lived k) (srcCap tgtCap : ℕ) : (h.resize srcCap tgtCap).Lived k := by
  intro i j
  show (if i < h.srcCap ∧ j < h.tgtCap then h.cells i j else {}).Lived k
  split_ifs
  · exact hh i j
  · exact Cell.lived_new

theorem Lived.locate (hh : h.Lived k) (src tgt : String) : (h.locate k src tgt).1.Lived k := by
  unfold Hitmap.locate
  dsimp only
  by_cases hcap : (findIndex k.perSource globalS h.srcIdx src).2.1 ≥ h.srcCap ∨
      (findIndex k.perTarget globalT h.tgtIdx tgt).2.1 ≥ h.tgtCap
  · rw [if_pos hcap]
    apply Lived.resize
    exact hh
  · rw [if_neg hcap]
    exact hh

theorem Lived.capture {msg : Msg} {src tgt : String} {what : Smatch} {change : Change}
    {te : Option CellEvent} (hh : h.Lived k)
    (hc : h.capture k msg src tgt what = some (h', change, te)) : h'.Lived k := by
  have hloc := hh.locate src tgt
  unfold Hitmap.capture at hc
  dsimp only at hc
  split at hc
  · cases hc
  · rename_i x te flipped hhit
    simp only [Option.some.injEq, Prod.mk.injEq] at hc
    rw [← hc.1]
    exact hloc.setCell ((hloc _ _).hit hhit) _ _

theorem Lived.event (hh : h.Lived k) (s t : ℕ) (ts : ℤ) : (h.event k s t ts).1.Lived k :=
  hh.setCell ((hh s t).event ts) s t

theorem Lived.reset (hh : h.Lived k) : h.reset.Lived k := by
  intro i j
  show (if i < h.srcCap ∧ j < h.tgtCap then (h.cells i j).reset else h.cells i j).Lived k
  split_ifs
  · exact (hh i j).reset
  · exact hh i j

end Hitmap

theorem Condition.lived_matchMsg (L : LexicalCast) (k : CondConfig) (msg : Msg) {c : Condition}
    (h : c.hitmap.Lived k) : (Exec.final (Condition.matchMsg L k msg) c).hitmap.Lived k := by
  rcases Condition.matchMsg_cases L k msg c with
    ⟨c', hkept, hm | ⟨err, hm⟩⟩ | ⟨c₁, hitmap, change, te, -, hcap, hm⟩
  · rw [Exec.final_ok hm, hkept.1]
    exact h
  · rw [Exec.final_error hm, hkept.1]
    exact h
  · rw [Exec.final_ok hm]
    exact h.capture hcap

/-- Whatever is called, a cell of the engine lives the life of a cell. -/
theorem Passed.cell_reaches {C R : Type} [DecidableEq C] [LinearOrder R] {cfg : Config C R}
    {e : Engine C R} (h : Passed cfg e) (c : C) : (e.conds c).hitmap.Lived (cfg.cond c) := by
  refine h.invariant (I := fun e => ∀ c, (e.conds c).hitmap.Lived (cfg.cond c))
    (fun _ _ _ => Cell.lived_new) (fun e e' hI hs c => ?_) c
  have hconds : ∀ (c : C) (x : Condition), x.hitmap.Lived (cfg.cond c) →
      ∀ c', (Function.update e.conds c x c').hitmap.Lived (cfg.cond c') := fun c x hx =>
    (Function.forall_update_iff e.conds fun c x => x.hitmap.Lived (cfg.cond c)).2
      ⟨hx, fun c' _ => hI c'⟩
  cases hs with
  | matched c' msg => exact hconds c' _ (Condition.lived_matchMsg _ _ _ (hI c')) c
  | events | emitted | domain | evaluated | switched | supervised | participants => exact hI c
  | delivered ev => exact hconds ev.cond _ ((hI ev.cond).event _ _ _) c
  | cleared cs rs =>
    show (if cs c then (e.conds c).reset else e.conds c).hitmap.Lived (cfg.cond c)
    split_ifs
    · exact (hI c).reset
    · exact hI c

end MfExtensions
