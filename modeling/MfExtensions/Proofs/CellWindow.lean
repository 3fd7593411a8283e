import Mathlib.Algebra.Order.Group.Abs
import Mathlib.Algebra.Order.Group.Int
import MfExtensions.Proofs.CellRun

/-!
# Messages in time

While messages come in the order of their times, what a cell holds shows every window of what it
captured (`Windowed`): so an `at_least` cell that may turn off is on after a hit if and only if
enough of the captured messages are in the window that ends there (`on_iff_window`). An `at_most`
cell that is on is turned off by any hit, and rightly so if enough of the messages it holds are in
the window (`turned_off_iff`).

When messages come late the front of the list need not be the oldest one, and messages that are
far apart may trigger the cell together, unless every message comes close to those it is held with
(`triggered_within`).
-/

namespace MfExtensions

open Machine Window

namespace CellRun

variable {k : CondConfig} {msg : Msg} {w : Smatch} {s s' : CellRun} {clock : ℤ}

/-! ## Windows -/

/-- No message is older than one the cell captured before. -/
def Ordered : CellAct → CellRun → Prop
  | .hit msg _, s => ∀ x ∈ s.captured, x.time ≤ msg.time
  | .event _, _ | .reset, _ => True

/-- What the cell holds shows the windows of what it captured. -/
structure Windowed (k : CondConfig) (s : CellRun) : Prop where
  order : InOrder Msg.time s.captured
  held : s.cell.msgs.Sublist s.captured
  shows : Shows Msg.time k.ts (sizeT k.tc) s.cell.msgs s.captured

theorem Windowed.le (h : Windowed k s) (hok : Ordered (.hit msg w) s) :
    ∀ x ∈ s.cell.msgs, x.time ≤ msg.time := fun x hx => hok x (h.held.subset hx)

/-- What a hit of messages in order holds are the last messages of the window. -/
theorem held_eq_window (hk : k.Sane) (h : Windowed k s) (hok : Ordered (.hit msg w) s) :
    Cell.kept k msg.time s.cell.msgs ++ [msg] =
      (recent Msg.time k.ts msg.time (s.cell.msgs ++ [msg])).rtake (sizeT k.tc) := by
  have horder := inOrder_concat (h.order.sublist h.held) (h.le hok)
  rw [← Cell.popExcess_unexpired hk, ← dropWhile_old horder (le_concat (h.le hok))]
  rfl

theorem Windowed.hit (hk : k.Sane) (hidle : (s.cell.on && k.persistent) = false)
    (h : Windowed k s) (hok : Ordered (.hit msg w) s) (hs : Hit k msg s s') : Windowed k s' := by
  have hmsgs := hs.msgs hidle
  refine ⟨?_, ?_, ?_⟩
  · rw [hs.captured]
    exact inOrder_concat h.order hok
  · rw [hs.captured, hmsgs]
    exact ((Cell.kept_sublist _ _).trans h.held).append (List.Sublist.refl _)
  · rw [hs.captured, hmsgs, held_eq_window hk h hok]
    exact (h.shows.push msg).trim (inOrder_concat (h.order.sublist h.held) (h.le hok))
      (le_concat (h.le hok)) (List.mem_append_right _ (List.mem_singleton.2 rfl))

theorem Windowed.step (hk : k.Sane) (hper : k.persistent = false) {a : CellAct}
    (h : Windowed k s) (hok : Ordered a s) (hs : step k a s = some s') : Windowed k s' := by
  cases a with
  | hit msg w => exact h.hit hk (by rw [hper, Bool.and_false]) hok (hit_of_step hk hs)
  | event t =>
    obtain rfl := Option.some_inj.1 hs
    have hmsgs := (event_fields (k := k) t s.cell).1
    exact ⟨h.order, hmsgs ▸ h.held, hmsgs ▸ h.shows⟩
  | reset =>
    obtain rfl := Option.some_inj.1 hs
    exact ⟨.nil, List.Sublist.refl _, .refl⟩

theorem windowed (hk : k.Sane) (hper : k.persistent = false)
    (h : Machine.Run (step k) Ordered (start clock) s) : Windowed k s :=
  h.invariant ⟨.nil, List.Sublist.refl _, .refl⟩ fun _ _ _ hI hok hs => hI.step hk hper hok hs

/-- The messages captured that are at most the timespan older than `m`, and not younger. -/
abbrev window (k : CondConfig) (m : ℤ) (s : CellRun) : List Msg :=
  s.captured.filter fun x => m - k.ts ≤ x.time ∧ x.time ≤ m

theorem sane_of_atLeast (htc : 1 ≤ k.tc) (hint : k.tc < 2 ^ 31) (hts : 0 ≤ k.ts) :
    k.Sane ∧ (sizeT k.tc : ℤ) = k.tc := by
  have hsize : (sizeT k.tc : ℤ) = k.tc := by
    rw [sizeT]
    omega
  exact ⟨⟨by omega, hts⟩, hsize⟩

variable (msg w) in
/-- An `at_least` cell that may turn off is on after a hit if and only if the window that ends with
the message holds the messages it asks for. -/
theorem on_iff_window (hleast : k.atLeast = true) (hper : k.persistent = false)
    (htc : 1 ≤ k.tc) (hint : k.tc < 2 ^ 31) (hts : 0 ≤ k.ts)
    (h : Machine.Run (step k) Ordered (start clock) s) (hok : Ordered (.hit msg w) s) :
    ∃ s', step k (.hit msg w) s = some s' ∧
      (s'.cell.on = true ↔ k.tc ≤ (s'.window k msg.time).length) := by
  obtain ⟨hk, hsize⟩ := sane_of_atLeast htc hint hts
  have hw := windowed hk hper h
  obtain ⟨s', hs, hhit⟩ := step_hit hk msg w s
  have hidle : (s.cell.on && k.persistent) = false := by rw [hper, Bool.and_false]
  refine ⟨s', hs, ?_⟩
  have hheld : s'.cell.msgs.length =
      min (sizeT k.tc) (recent Msg.time k.ts msg.time (s.cell.msgs ++ [msg])).length := by
    rw [hhit.msgs hidle, held_eq_window hk hw hok, length_rtake]
  have hcount := (hw.shows.push msg).le_length_iff (le_concat hok) le_rfl
  have hcaptured : s'.window k msg.time =
      recent Msg.time k.ts msg.time (s.captured ++ [msg]) := by rw [window, hhit.captured]; rfl
  rw [hhit.on hidle, hleast, Bool.true_and, decide_eq_true_eq, hcaptured]
  omega

/-- Two messages in ten seconds. -/
def pairConfig : CondConfig := { everyMsg with tc := 2, ts := 10 }

theorem on_iff_window_second : ∃ s s', step pairConfig (.hit (msgAt 0) {}) (start 0) = some s ∧
    step pairConfig (.hit (msgAt 10) {}) s = some s' ∧
      (s'.cell.on = true ↔ 2 ≤ ((s'.window pairConfig 10).length : ℤ)) := by
  have h : Machine.Run (step pairConfig) Ordered (start 0) _ :=
    Machine.Run.next .refl (a := .hit (msgAt 0) {}) (fun _ hx => absurd hx List.not_mem_nil) rfl
  obtain ⟨s', hs, hon⟩ := on_iff_window (msgAt 10) {} rfl rfl (by decide) (by decide) (by decide)
    h (fun x hx => by rw [List.mem_singleton.1 hx]; decide)
  exact ⟨_, s', rfl, hs, hon⟩

/-! ## Too many messages -/

/-- The messages it holds that are in the window. -/
abbrev heldWindow (k : CondConfig) (m : ℤ) (s : CellRun) : List Msg :=
  s.cell.msgs.filter fun x => m - k.ts ≤ x.time ∧ x.time ≤ m

/-- The worker has brought back every event that is due before a message, and only events that were
scheduled, and no message is older than the last second seen. -/
def Timely : CellAct → CellRun → Prop
  | .hit msg _, s => s.clock ≤ msg.time ∧ ∀ t ∈ s.scheduled, msg.time ≤ t
  | .event t, s => t ∈ s.scheduled
  | .reset, _ => True

theorem sane_of_atMost {n : Int32} (hn : 0 ≤ n.toInt) (htc : k.tc = (triggerCount n false).toInt)
    (hts : 0 ≤ k.ts) : k.Sane ∧ n.toInt + 1 ≤ sizeT k.tc := by
  have hsize : n.toInt + 1 ≤ sizeT k.tc := by
    have hlt := n.toInt_lt
    rw [htc, sizeT, triggerCount, if_neg Bool.false_ne_true, Int32.toInt_add]
    simp only [Int32.toInt_one]
    rw [Int.bmod_def]
    omega
  exact ⟨⟨by omega, hts⟩, hsize⟩

/-- Any hit turns off an `at_most` cell that may turn off, and then the window holds more messages
than it asks for if and only if the cell held as many in the window before. -/
theorem turned_off {n : Int32} (hmost : k.atLeast = false) (hper : k.persistent = false)
    (hn : 0 ≤ n.toInt) (htc : k.tc = (triggerCount n false).toInt) (hts : 0 ≤ k.ts)
    (h : Machine.Run (step k) Ordered (start clock) s) (hok : Ordered (.hit msg w) s) :
    ∃ s', step k (.hit msg w) s = some s' ∧ s'.cell.on = false ∧
      (n.toInt < (s'.window k msg.time).length ↔
        n.toInt ≤ (s.heldWindow k msg.time).length) := by
  obtain ⟨hk, hsize⟩ := sane_of_atMost hn htc hts
  have hw := windowed hk hper h
  obtain ⟨s', hs, hhit⟩ := step_hit hk msg w s
  have hidle : (s.cell.on && k.persistent) = false := by rw [hper, Bool.and_false]
  refine ⟨s', hs, by rw [hhit.on hidle, hmost, Bool.false_and], ?_⟩
  have hcount := hw.shows.le_length_iff (m := msg.time) hok (k := n.toInt.toNat) (by omega)
  have hnew : recent Msg.time k.ts msg.time [msg] = [msg] := by
    refine List.filter_cons_of_pos (decide_eq_true ?_)
    omega
  have hcaptured : (s'.window k msg.time).length =
      (recent Msg.time k.ts msg.time s.captured).length + 1 := by
    have hwin : s'.window k msg.time =
      recent Msg.time k.ts msg.time (s.captured ++ [msg]) := by rw [window, hhit.captured]; rfl
    rw [hwin, recent_append, hnew, List.length_append, List.length_singleton]
  have hheld : s.heldWindow k msg.time = recent Msg.time k.ts msg.time s.cell.msgs := rfl
  rw [hcaptured, hheld]
  omega

/-- Messages that come when they are due come in order. -/
theorem ordered_of_timely (h : Machine.Run (step k) Timely (start clock) s) :
    Machine.Run (step k) Ordered (start clock) s ∧ ∀ x ∈ s.captured, x.time ≤ s.clock := by
  refine h.invariant (I := fun s => Machine.Run (step k) Ordered (start clock) s ∧
    ∀ x ∈ s.captured, x.time ≤ s.clock) ⟨.refl, by simp [start]⟩ ?_
  intro a s s' hI hok hs
  obtain ⟨hrun, hle⟩ := hI
  cases a with
  | hit msg w =>
    refine ⟨hrun.next (a := .hit msg w) (fun x hx => (hle x hx).trans hok.1) hs, ?_⟩
    cases hhit : s.cell.hit k msg w with
    | none => simp [step, hhit] at hs
    | some p =>
      rw [step_of_hit hhit] at hs
      obtain rfl := Option.some_inj.1 hs
      refine fun x hx => ?_
      rcases List.mem_append.1 hx with hx | hx
      · exact (hle x hx).trans (le_max_left _ _)
      · rw [List.mem_singleton.1 hx]
        exact le_max_right _ _
  | event t =>
    refine ⟨hrun.next (a := .event t) trivial hs, ?_⟩
    obtain rfl := Option.some_inj.1 hs
    exact fun x hx => (hle x hx).trans (le_max_left _ _)
  | reset =>
    refine ⟨hrun.next (a := .reset) trivial hs, ?_⟩
    obtain rfl := Option.some_inj.1 hs
    simp

/-- Whenever a hit turns off the cell, the window holds more messages than it asks for. -/
def OffExceeded (k : CondConfig) (n : Int32) : Prop :=
  ∀ clock s, Machine.Run (step k) Timely (start clock) s → ∀ msg w s', Timely (.hit msg w) s →
    step k (.hit msg w) s = some s' → s.cell.on = true → s'.cell.on = false →
      n.toInt < (s'.window k msg.time).length

/-- A message at a time, the event it schedules and a message right after that: the first message
has just left the window when the second turns the cell off. -/
theorem not_offExceeded {n : Int32} (hmost : k.atLeast = false) (hper : k.persistent = false)
    (hn : 0 < n.toInt) (htc : k.tc = (triggerCount n false).toInt) (hts : 0 ≤ k.ts) :
    ¬OffExceeded k n := by
  obtain ⟨hk, -⟩ := sane_of_atMost hn.le htc hts
  intro hall
  -- the first message
  obtain ⟨y, te, flipped, hhit, hmsgs, hon, hte⟩ :=
    Cell.hit_of_sane (msgAt 0) {} (x := {}) hk rfl
  obtain ⟨hnext, hevent⟩ := hte hmost
  have hkept : Cell.kept k (msgAt 0).time [] = [] := List.sublist_nil.1 (Cell.kept_sublist _ _)
  rw [hkept, List.nil_append] at hmsgs
  have htime : y.tEvent = k.ts + 1 := by
    have hsome : some y.tEvent = some (0 + k.ts + 1) := by rw [← hevent, hnext, hmsgs]; rfl
    rw [Option.some_inj.1 hsome, zero_add]
  have hoff : y.on = false := by rw [hon, hmost, Bool.false_and]
  have h₁ : Machine.Run (step k) Timely (start 0) _ :=
    Machine.Run.next .refl (a := .hit (msgAt 0) {}) ⟨le_rfl, by simp [start]⟩ (step_of_hit hhit)
  -- its event
  have h₂ := h₁.next (a := .event (k.ts + 1)) (by simp [Timely, hevent, htime]) rfl
  have hturned : y.event k (k.ts + 1) = ({ y with on := true }, true) := by
    unfold Cell.event
    simp [htime, hmost, hoff]
  simp only [hturned] at h₂
  -- the second message
  obtain ⟨s', hs, hnew⟩ := step_hit hk (msgAt (k.ts + 2)) {} _
  have hidle : (true && k.persistent) = false := by rw [hper, Bool.and_false]
  have hexceeded := hall _ _ h₂ (msgAt (k.ts + 2)) {} s' ⟨?_, ?_⟩ hs rfl
    (by rw [hnew.on hidle, hmost, Bool.false_and])
  · have hwindow : s'.window k (k.ts + 2) = [msgAt (k.ts + 2)] := by
      rw [window, hnew.captured]
      simp [start, msgAt, hts]
    have hone : (s'.window k (msgAt (k.ts + 2)).time).length = 1 :=
      congrArg List.length hwindow
    omega
  · show max (max 0 0) (k.ts + 1 + 1) ≤ k.ts + 2
    omega
  · simp [start, hevent, htime]

/-- Only where a single message is too many do all messages that turn the cell off exceed the
count. -/
theorem offExceeded_iff {n : Int32} (hmost : k.atLeast = false) (hper : k.persistent = false)
    (hn : 0 ≤ n.toInt) (htc : k.tc = (triggerCount n false).toInt) (hts : 0 ≤ k.ts) :
    OffExceeded k n ↔ n.toInt = 0 := by
  constructor
  · intro hall
    by_contra hne
    exact not_offExceeded hmost hper (by omega) htc hts hall
  · intro hzero clock s h msg w s' hok hs _ _
    obtain ⟨hrun, hle⟩ := ordered_of_timely h
    have hord : Ordered (.hit msg w) s := fun x hx => (hle x hx).trans hok.1
    obtain ⟨s₁, hs₁, -, hcount⟩ := turned_off hmost hper hn htc hts hrun hord
    obtain rfl : s₁ = s' := Option.some_inj.1 (hs₁.symm.trans hs)
    exact hcount.2 (by omega)

/-- A hit that turns off an `at_most` cell does so with more messages in the window than it asks
for if and only if the cell held as many of them before, and that is so of every run if and only if
it asks for none. -/
theorem turned_off_exceeded_iff {n : Int32} (hmost : k.atLeast = false)
    (hper : k.persistent = false) (hn : 0 ≤ n.toInt)
    (htc : k.tc = (triggerCount n false).toInt) (hts : 0 ≤ k.ts) :
    (∀ clock s msg w, Machine.Run (step k) Timely (start clock) s → Timely (.hit msg w) s →
      ∃ s', step k (.hit msg w) s = some s' ∧ s'.cell.on = false ∧
        (n.toInt < (s'.window k msg.time).length ↔
          n.toInt ≤ (s.heldWindow k msg.time).length)) ∧
      (OffExceeded k n ↔ n.toInt = 0) := by
  refine ⟨fun clock s msg w h hok => ?_, offExceeded_iff hmost hper hn htc hts⟩
  obtain ⟨hrun, hle⟩ := ordered_of_timely h
  exact turned_off hmost hper hn htc hts hrun fun x hx => (hle x hx).trans hok.1

/-- At most one message in ten seconds. -/
def soloConfig : CondConfig := { everyMsg with atLeast := false, tc := 2, ts := 10 }

/-- Messages of the seconds 0 and 5 are held when the cell turns on after the second 11, and with
the one of the second 12 that turns it off there are two in the window. -/
theorem turned_off_exceeded_held : (∃ s s', Machine.Run (step soloConfig) Timely (start 0) s ∧
    s.cell.on = true ∧ s.cell.msgs = [msgAt 0, msgAt 5] ∧
    step soloConfig (.hit (msgAt 12) {}) s = some s' ∧ s'.cell.on = false ∧
    1 < ((s'.window soloConfig 12).length : ℤ)) ∧ ¬OffExceeded soloConfig 1 := by
  have hall := turned_off_exceeded_iff (k := soloConfig) (n := 1) rfl rfl (by decide) (by decide)
    (by decide)
  have h₁ : Machine.Run (step soloConfig) Timely (start 0) _ :=
    Machine.Run.next .refl (a := .hit (msgAt 0) {}) ⟨le_rfl, by simp [start]⟩ rfl
  have h₂ := h₁.next (a := .hit (msgAt 5) {}) ⟨by decide, by decide⟩ rfl
  -- both messages have scheduled the event
  have h₃ := h₂.next (a := .event 11) List.mem_cons_self rfl
  have h₄ := h₃.next (a := .event 11) List.mem_cons_self rfl
  obtain ⟨s', hs', hoff, hiff⟩ := hall.1 0 _ (msgAt 12) {} h₄ ⟨by decide, by decide⟩
  exact ⟨⟨_, s', h₄, rfl, rfl, hs', hoff, hiff.2 (by decide)⟩,
    fun h => absurd (hall.2.1 h) (by decide)⟩

/-- A message of the second 0 lets the cell turn on after the second 11, and a message of the second
12 turns it off, the only one in its window. -/
theorem solo_turned_off : ∃ s s', Machine.Run (step soloConfig) Timely (start 0) s ∧
    Timely (.hit (msgAt 12) {}) s ∧ step soloConfig (.hit (msgAt 12) {}) s = some s' ∧
      s.cell.on = true ∧ s'.cell.on = false ∧ s'.window soloConfig 12 = [msgAt 12] := by
  have h₁ : Machine.Run (step soloConfig) Timely (start 0) _ :=
    Machine.Run.next .refl (a := .hit (msgAt 0) {}) ⟨le_rfl, by simp [start]⟩ rfl
  have h₂ := h₁.next (a := .event 11) (List.mem_singleton.2 rfl) rfl
  exact ⟨_, _, h₂, ⟨by decide, by decide⟩, rfl, rfl, rfl, by decide⟩

/-! ## Late messages -/

/-- No two of the messages are more than the timespan apart. -/
def Near (k : CondConfig) (ms : List Msg) : Prop := ∀ x ∈ ms, ∀ y ∈ ms, x.time - y.time ≤ k.ts

/-- A message comes at most the timespan before or after those it is held with. -/
def Close (k : CondConfig) : CellAct → CellRun → Prop
  | .hit msg _, s => (s.cell.on && k.persistent) = false →
      ∀ x ∈ Cell.kept k msg.time s.cell.msgs, |msg.time - x.time| ≤ k.ts
  | .event _, _ | .reset, _ => True

theorem near_concat_iff {ms : List Msg} (hts : 0 ≤ k.ts) :
    Near k (ms ++ [msg]) ↔ Near k ms ∧ ∀ x ∈ ms, |msg.time - x.time| ≤ k.ts := by
  simp only [Near, List.mem_append, List.mem_singleton, abs_le]
  constructor
  · intro h
    refine ⟨fun x hx y hy => h x (.inl hx) y (.inl hy), fun x hx => ?_⟩
    have h₁ := h x (.inl hx) msg (.inr rfl)
    have h₂ := h msg (.inr rfl) x (.inl hx)
    omega
  · rintro ⟨hms, hmsg⟩ x (hx | rfl) y (hy | rfl)
    · exact hms x hx y hy
    · have h := hmsg x hx
      omega
    · have h := hmsg y hy
      omega
    · omega

/-- What the cell holds it captured, and if a hit may still turn it on no two of the messages are
far apart. -/
structure Together (k : CondConfig) (s : CellRun) : Prop where
  held : s.cell.msgs.Sublist s.captured
  near : (s.cell.on && k.persistent) = true ∨ Near k s.cell.msgs

/-- A hit that may turn the cell on leaves messages that are close if and only if the message comes
close to those it is held with. -/
theorem near_hit_iff (hk : k.Sane) (h : Together k s) (hidle : (s.cell.on && k.persistent) = false)
    (hs : Hit k msg s s') : Near k s'.cell.msgs ↔ Close k (.hit msg w) s := by
  have hnear : Near k (Cell.kept k msg.time s.cell.msgs) := by
    rcases h.near with hon | hnear
    · rw [hon] at hidle
      cases hidle
    · exact fun x hx y hy => hnear x ((Cell.kept_sublist _ _).subset hx) y
        ((Cell.kept_sublist _ _).subset hy)
  rw [hs.msgs hidle, near_concat_iff hk.timespan]
  exact ⟨fun h _ => h.2, fun h => ⟨hnear, h hidle⟩⟩

theorem Together.step (hk : k.Sane) {a : CellAct} (h : Together k s) (hok : Close k a s)
    (hs : step k a s = some s') : Together k s' := by
  cases a with
  | hit msg w =>
    have hhit := hit_of_step hk hs
    by_cases hidle : (s.cell.on && k.persistent) = true
    · obtain ⟨hon, hmsgs⟩ := hhit.persistent hidle
      refine ⟨?_, .inl ?_⟩
      · rw [hhit.captured, hmsgs]
        exact (List.tail_sublist _).trans (h.held.append (List.Sublist.refl _))
      · rw [hon, (Bool.and_eq_true_iff.1 hidle).2]
        rfl
    · have hfalse := Bool.not_eq_true _ ▸ hidle
      refine ⟨?_, .inr ((near_hit_iff hk h hfalse hhit).2 hok)⟩
      rw [hhit.captured, hhit.msgs hfalse]
      exact ((Cell.kept_sublist _ _).trans h.held).append (List.Sublist.refl _)
  | event t =>
    obtain rfl := Option.some_inj.1 hs
    obtain ⟨hmsgs, hon⟩ := event_fields (k := k) t s.cell
    refine ⟨hmsgs ▸ h.held, ?_⟩
    rcases h.near with hidle | hnear
    · refine .inl ?_
      rw [hon hidle, (Bool.and_eq_true_iff.1 hidle).2]
      rfl
    · exact .inr (hmsgs ▸ hnear)
  | reset =>
    obtain rfl := Option.some_inj.1 hs
    exact ⟨List.Sublist.refl _, .inr (fun x hx => absurd hx List.not_mem_nil)⟩

variable (msg w) in
/-- As long as every message comes close to those it is held with, a hit that turns an `at_least`
cell on does so for as many messages as it asks for, no two of them far apart. -/
theorem triggered_within (htc : 1 ≤ k.tc) (hint : k.tc < 2 ^ 31)
    (hts : 0 ≤ k.ts) (h : Machine.Run (step k) (Close k) (start clock) s)
    (hok : Close k (.hit msg w) s) (hs : step k (.hit msg w) s = some s')
    (hoff : s.cell.on = false) (hon : s'.cell.on = true) :
    ∃ ms : List Msg, ms.Sublist s'.captured ∧ ms.length = k.tc ∧
      ∀ x ∈ ms, ∀ y ∈ ms, |x.time - y.time| ≤ k.ts := by
  obtain ⟨hk, hsize⟩ := sane_of_atLeast htc hint hts
  have htogether : Together k s := h.invariant
    ⟨List.Sublist.refl _, .inr fun x hx => absurd hx List.not_mem_nil⟩
    fun _ _ _ hI hok hs => hI.step hk hok hs
  have hidle : (s.cell.on && k.persistent) = false := by rw [hoff, Bool.false_and]
  have hhit := hit_of_step hk hs
  have hfull : s'.cell.msgs.length = sizeT k.tc := by
    rw [hhit.on hidle, Bool.and_eq_true, decide_eq_true_eq] at hon
    exact hon.2
  have hnear := (near_hit_iff hk htogether hidle hhit).2 hok
  refine ⟨s'.cell.msgs, (htogether.step hk hok hs).held, by omega, fun x hx y hy => ?_⟩
  have h₁ := hnear x hx y hy
  have h₂ := hnear y hy x hx
  rw [abs_le]
  omega

theorem triggered_within_second : ∃ s s', step pairConfig (.hit (msgAt 10) {}) (start 0) = some s ∧
    step pairConfig (.hit (msgAt 0) {}) s = some s' ∧ ∃ ms : List Msg, ms.Sublist s'.captured ∧
      (ms.length : ℤ) = 2 ∧ ∀ x ∈ ms, ∀ y ∈ ms, |x.time - y.time| ≤ 10 := by
  have h : Machine.Run (step pairConfig) (Close pairConfig) (start 0) _ :=
    Machine.Run.next .refl (a := .hit (msgAt 10) {})
      (fun _ _ hx => absurd hx List.not_mem_nil) rfl
  exact ⟨_, _, rfl, rfl, triggered_within (msgAt 0) {} (by decide) (by decide) (by decide) h
    (fun _ => by decide) rfl rfl rfl⟩

/-- A message that comes a hundred seconds late triggers the cell with the one before it. -/
theorem late_triggers : ∃ s s', Reaches (step pairConfig) (start 0) s ∧
    step pairConfig (.hit (msgAt 0) {}) s = some s' ∧ s.cell.on = false ∧ s'.cell.on = true ∧
      ¬∃ ms : List Msg, ms.Sublist s'.captured ∧ ms.length = 2 ∧
        ∀ x ∈ ms, ∀ y ∈ ms, |x.time - y.time| ≤ 10 := by
  refine ⟨_, _, reaches_exec [.hit (msgAt 100) {}] rfl, rfl, rfl, rfl, ?_⟩
  rintro ⟨ms, hsub, hlength, hnear⟩
  have hms : ms = [msgAt 100, msgAt 0] := hsub.eq_of_length hlength
  have hfar := hnear (msgAt 100) (by simp [hms]) (msgAt 0) (by simp [hms])
  exact absurd hfar (by decide)

end CellRun

end MfExtensions
