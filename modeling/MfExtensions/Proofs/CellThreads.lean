import Mathlib.Data.List.TakeWhile
import MfExtensions.CellThreads
import MfExtensions.Proofs.Events

/-!
# Cells that wait for an event

A cell that only an event can bring back, one that is on for a time or an `at_most` cell that is
off, has its event in the queue as long as no pass of the event worker takes the event of a hit,
and no reset the cell, before the hit has assigned `on` (`not_stuck`). Otherwise it can be left
without one (`stuck_after_worker`).
-/

namespace MfExtensions

open Machine

variable {C : Type}

/-! ## A hit in one piece -/

namespace Cell

variable {k : CondConfig} {msg : Msg} {w : Smatch} {x : Cell}

/-- A hit that no other thread comes between is its two parts in a row. -/
theorem hit_eq (k : CondConfig) (msg : Msg) (w : Smatch) (x : Cell) :
    x.hit k msg w = (x.beginHit k msg w).map fun p =>
      p.2.2.elim (p.1, p.2.1, false) fun b => ((p.1.assign b).1, p.2.1, (p.1.assign b).2) := by
  have hassign : ∀ (y : Cell) (b : Bool), y.assign b = ({ y with on := b }, b != y.on) := by
    intro y b
    unfold assign
    split_ifs with hb
    · simp [hb]
    · simp [hb]
  unfold hit beginHit
  by_cases hp : (x.on && k.persistent) = true
  · simp [hp]
  · simp only [hp, Bool.false_eq_true, if_false]
    cases popExpired msg.time k.ts (x.msgs ++ [msg]) with
    | none => rfl
    | some fresh =>
      cases hn : nextEvent k.ts (popExcess (sizeT k.tc) fresh) with
      | none =>
        simp only [hn]
        split_ifs <;> simp [hassign]
      | some t =>
        simp only [hn]
        split_ifs <;> simp [hassign]

variable (msg) in
/-- The messages that are not too old include the last one. -/
theorem popExpired_append (hts : 0 ≤ k.ts) : ∀ ms : List Msg,
    ∃ fresh, popExpired msg.time k.ts (ms ++ [msg]) = some (fresh ++ [msg])
  | [] => ⟨[], by simp [popExpired, hts]⟩
  | m :: ms => by
    obtain ⟨fresh, hfresh⟩ := popExpired_append hts ms
    rw [List.cons_append, popExpired]
    split_ifs
    · exact ⟨fresh, hfresh⟩
    · exact ⟨m :: ms, rfl⟩

/-- With a trigger count of at least one and a timespan of at least zero no hit reads the front of
an empty list. -/
theorem beginHit_ne_none (htc : 0 < sizeT k.tc) (hts : 0 ≤ k.ts) :
    x.beginHit k msg w ≠ none := by
  obtain ⟨fresh, hfresh⟩ := popExpired_append msg hts x.msgs
  have hne : popExcess (sizeT k.tc) (fresh ++ [msg]) ≠ [] := by
    rw [popExcess, ne_eq, List.drop_eq_nil_iff, List.length_append, List.length_singleton]
    omega
  obtain ⟨m, ms, hms⟩ := List.exists_cons_of_ne_nil hne
  unfold beginHit
  simp only [hfresh, hms, nextEvent]
  split_ifs <;> simp

/-- A hit changes nothing but messages if the cell is on for good, or pushes the cell's event, or
is about to turn off an `at_least` cell. -/
theorem beginHit_cases {y : Cell} {te : Option ℤ} {newState : Option Bool}
    (h : x.beginHit k msg w = some (y, te, newState)) :
    (newState = none ∧ k.persistent = true ∧ y.on = true) ∨
    (te = some y.tEvent ∧ ∃ b, newState = some b) ∨
    (newState = some false ∧ k.atLeast = true) := by
  unfold beginHit at h
  by_cases hp : (x.on && k.persistent) = true
  · simp only [hp, if_true, Option.some.injEq, Prod.mk.injEq] at h
    obtain ⟨rfl, -, rfl⟩ := h
    rw [Bool.and_eq_true] at hp
    exact .inl ⟨rfl, hp.2, hp.1⟩
  · simp only [hp, Bool.false_eq_true, if_false] at h
    cases hf : popExpired msg.time k.ts (x.msgs ++ [msg]) with
    | none => simp [hf] at h
    | some fresh =>
      have hpushed : ∀ (t : ℤ) (b : Bool), nextEvent k.ts (popExcess (sizeT k.tc) fresh) = some t →
          some ({ x with msgs := popExcess (sizeT k.tc) fresh, what := w, tEvent := t }, some t,
            some b) = some (y, te, newState) → te = some y.tEvent ∧ ∃ b, newState = some b := by
        intro t b _ h
        simp only [Option.some.injEq, Prod.mk.injEq] at h
        obtain ⟨rfl, rfl, rfl⟩ := h
        exact ⟨rfl, b, rfl⟩
      cases hn : nextEvent k.ts (popExcess (sizeT k.tc) fresh) with
      | none =>
        simp only [hf, hn] at h
        split_ifs at h with hfull hleast
        simp only [Option.some.injEq, Prod.mk.injEq] at h
        exact .inr (.inr ⟨h.2.2.symm, by simpa using hleast⟩)
      | some t =>
        simp only [hf, hn] at h
        split_ifs at h with hfull hleast
        · exact .inr (.inl (hpushed t _ hn h))
        · exact .inr (.inl (hpushed t _ hn h))
        · simp only [Option.some.injEq, Prod.mk.injEq] at h
          exact .inr (.inr ⟨h.2.2.symm, by simpa using hleast⟩)

end Cell

namespace Threads

variable [DecidableEq C] (k : C → CondConfig)

/-- An event of the list is due at the cell. -/
def isDue (evs : List (TimingEvent C)) (x : CellId C) (y : Cell) : Bool :=
  evs.any fun ev => ev.cell = x ∧ ev.ts = y.tEvent

/-- A batch of events gives a cell with an event that is due the status of its condition's
events. -/
theorem deliver_eq (x : CellId C) : ∀ (evs : List (TimingEvent C)) (cells : CellId C → Cell),
    deliver k evs cells x = { cells x with
      on := if isDue evs x (cells x) then (k x.1).eventStatus else (cells x).on }
  | [], cells => rfl
  | ev :: evs, cells => by
    rw [deliver, deliver_eq x evs]
    rcases eq_or_ne ev.cell x with rfl | hne
    · rw [Function.update_self, Cell.event_eq]
      by_cases hts : ev.ts = (cells ev.cell).tEvent
      · have hk : (k ev.cell.1).eventStatus = (k ev.cond).eventStatus := rfl
        simp [hts, isDue, hk]
      · simp [hts, isDue]
    · rw [Function.update_of_ne hne.symm]
      have hdue : isDue (ev :: evs) x (cells x) = isDue evs x (cells x) := by simp [isDue, hne]
      rw [hdue]

/-- The event worker of the engine delivers events to the cells of the conditions in this way. -/
theorem deliver_engine {R : Type} (cfg : Config C R) (evs : List (TimingEvent C))
    (conds : C → Condition) (status : List C) (c : C) (i j : ℕ) :
    ((Engine.deliver cfg evs conds status).1 c).hitmap.cells i j =
      deliver cfg.cond evs (fun x => (conds x.1).hitmap.cells x.2.1 x.2.2) (c, i, j) := by
  have hdue : isDue evs (c, i, j) ((conds c).hitmap.cells i j) =
      Engine.isDue evs conds c i j := by
    simp only [isDue, Engine.isDue, TimingEvent.cell, Prod.mk.injEq, and_assoc]
  rw [(Engine.deliver_eq cfg evs conds status).1, Engine.delivered_cells, deliver_eq, hdue]

/-! ## Cells that wait -/

/-- The status the cell has or, while it is hit, is about to have. -/
def status (s : Threads C) (x : CellId C) : Bool := (s.hitting x).getD (s.cells x).on

/-- Only an event brings the cell back from the status `on`: it is on and not for good, or it waits
to turn on after a message. -/
def Waits (s : Threads C) (x : CellId C) (on : Bool) : Prop :=
  if (k x.1).atLeast then (k x.1).persistent = false ∧ on = true
  else on = false ∧ s.captured x = true

/-- The event of the cell is in the queue. -/
def Queued (s : Threads C) (x : CellId C) : Prop :=
  ∃ ev ∈ s.events, ev.cell = x ∧ ev.ts = (s.cells x).tEvent

/-- If no hit of the cell is in progress and it waits for its event, the event is in the queue. -/
def NotStuck (s : Threads C) (x : CellId C) : Prop :=
  s.hitting x = none → Waits k s x (s.cells x).on → Queued s x

/-- No pass of the worker takes the event of a hit before it has assigned a status that waits for
it, and no reset comes to an `at_least` cell before a hit has turned it on. -/
def Allowed : ThreadAct C → Threads C → Prop
  | .worker now, s => ∀ x b, s.hitting x = some b → Waits k s x b → now ≤ (s.cells x).tEvent
  | .reset x, s => ∀ b, s.hitting x = some b → (k x.1).atLeast = true → ¬Waits k s x b
  | .hit _ _ _, _ | .assign _, _ => True

/-- A cell that waits, or will when its hit is over, has its event in the queue. -/
def Inv (s : Threads C) : Prop := ∀ x, Waits k s x (s.status x) → Queued s x

omit [DecidableEq C] in
/-- A step that touches only the cell `x` and keeps the events keeps the invariant of the others. -/
theorem Inv.of_others {s s' : Threads C} {x : CellId C} (h : Inv k s)
    (hothers : ∀ y, y ≠ x → s'.cells y = s.cells y ∧ s'.hitting y = s.hitting y ∧
      s'.captured y = s.captured y)
    (hevents : ∀ ev ∈ s.events, ev ∈ s'.events) (hx : Waits k s' x (s'.status x) → Queued s' x) :
    Inv k s' := by
  intro y hy
  rcases eq_or_ne y x with rfl | hne
  · exact hx hy
  · obtain ⟨hcell, hhit, hcap⟩ := hothers y hne
    have hw : Waits k s y (s.status y) := by
      simpa only [Waits, status, hcell, hhit, hcap] using hy
    obtain ⟨ev, hev, hc, hts⟩ := h y hw
    exact ⟨ev, hevents ev hev, hc, by rw [hcell, hts]⟩

theorem inv_hit {s s' : Threads C} {x : CellId C} {msg : Msg} {w : Smatch} (h : Inv k s)
    (hs : step k (.hit x msg w) s = some s') : Inv k s' := by
  simp only [step] at hs
  split_ifs at hs with hbusy
  cases hb : (s.cells x).beginHit (k x.1) msg w with
  | none => simp [hb] at hs
  | some p =>
    obtain ⟨y, te, newState⟩ := p
    simp only [hb, Option.some.injEq] at hs
    subst hs
    refine h.of_others k (x := x) (fun z hz => ?_) (fun ev hev => ?_) fun hw => ?_
    · simp [Function.update_of_ne hz]
    · cases te with
      | none => exact hev
      | some t => exact Engine.mem_pushEvent.2 (.inr hev)
    · rcases Cell.beginHit_cases hb with ⟨rfl, hper, hon⟩ | ⟨rfl, b, rfl⟩ | ⟨rfl, hleast⟩
      · simp [Waits, status, hper, hon] at hw
      · exact ⟨_, Engine.mem_pushEvent.2 (.inl rfl), rfl, by simp⟩
      · simp [Waits, status, hleast] at hw

theorem inv_assign {s s' : Threads C} {x : CellId C} (h : Inv k s)
    (hs : step k (.assign x) s = some s') : Inv k s' := by
  simp only [step] at hs
  cases hb : s.hitting x with
  | none => simp [hb] at hs
  | some b =>
    simp only [hb, Option.some.injEq] at hs
    subst hs
    refine h.of_others k (x := x) (fun z hz => ?_) (fun ev hev => hev) fun hw => ?_
    · simp [Function.update_of_ne hz]
    · have hon : ((s.cells x).assign b).1 = { s.cells x with on := b } := by
        unfold Cell.assign
        split_ifs with heq <;> simp [heq]
      have hwaits : Waits k s x (s.status x) := by
        simpa [Waits, status, hb, hon] using hw
      obtain ⟨ev, hev, hc, hts⟩ := h x hwaits
      exact ⟨ev, hev, hc, by simp [hon, hts]⟩

/-- An event that is not due stays in the queue. -/
theorem queued_worker {s : Threads C} {now : ℤ} {x : CellId C} (h : Queued s x)
    (hdue : isDue (s.events.takeWhile fun ev => ev.ts < now) x (s.cells x) = false) :
    Queued { s with
      cells := deliver k (s.events.takeWhile fun ev => ev.ts < now) s.cells
      events := s.events.dropWhile fun ev => ev.ts < now } x := by
  obtain ⟨ev, hev, hc, hts⟩ := h
  have hcell := deliver_eq k x (s.events.takeWhile fun ev => ev.ts < now) s.cells
  rw [← List.takeWhile_append_dropWhile (p := fun ev => decide (ev.ts < now)) (l := s.events),
    List.mem_append] at hev
  refine ⟨ev, hev.resolve_left fun hmem => ?_, hc, ?_⟩
  · simp only [isDue, List.any_eq_false, decide_eq_true_eq] at hdue
    exact hdue ev hmem ⟨hc, hts⟩
  · simp only [hcell]
    exact hts

theorem inv_worker {s : Threads C} {now : ℤ} (h : Inv k s) (hok : Allowed k (.worker now) s) :
    Inv k { s with
      cells := deliver k (s.events.takeWhile fun ev => ev.ts < now) s.cells
      events := s.events.dropWhile fun ev => ev.ts < now } := by
  intro x hw
  have hcell := deliver_eq k x (s.events.takeWhile fun ev => ev.ts < now) s.cells
  cases hb : s.hitting x with
  | some b =>
    have hwb : Waits k s x b := by simpa [Waits, status, hb] using hw
    refine queued_worker k (h x (by rwa [status, hb])) ?_
    simp only [isDue, List.any_eq_false, decide_eq_true_eq]
    rintro ev hev ⟨-, hts⟩
    have hlt := List.mem_takeWhile_imp hev
    rw [decide_eq_true_eq] at hlt
    have := hok x b hb hwb
    omega
  | none =>
    cases hdue : isDue (s.events.takeWhile fun ev => ev.ts < now) x (s.cells x) with
    | true =>
      -- the cell has the status of its events, which none brings back
      simp only [Waits, status, hb, Option.getD_none, hcell, hdue, if_true,
        CondConfig.eventStatus] at hw
      split_ifs at hw <;> simp_all
    | false =>
      refine queued_worker k (h x ?_) hdue
      simpa only [Waits, status, hb, Option.getD_none, hcell, hdue, Bool.false_eq_true,
        if_false] using hw

theorem inv_reset {s : Threads C} {x : CellId C} (h : Inv k s) (hok : Allowed k (.reset x) s) :
    Inv k { s with
      cells := Function.update s.cells x (s.cells x).reset
      captured := Function.update s.captured x false } := by
  refine h.of_others k (x := x) (fun z hz => ?_) (fun ev hev => hev) fun hw => ?_
  · simp [Function.update_of_ne hz]
  · exfalso
    simp only [Waits, status, Function.update_self, Bool.false_eq_true, and_false] at hw
    split_ifs at hw with hleast
    cases hb : s.hitting x with
    | none => simp [hb, Cell.reset] at hw
    | some b =>
      refine hok b hb hleast ?_
      rw [Waits, if_pos hleast]
      simpa [hb] using hw

theorem inv_step {a : ThreadAct C} {s s' : Threads C} (h : Inv k s) (hok : Allowed k a s)
    (hs : step k a s = some s') : Inv k s' := by
  cases a with
  | hit x msg w => exact inv_hit k h hs
  | assign x => exact inv_assign k h hs
  | worker now =>
    rw [← Option.some_inj.1 hs]
    exact inv_worker k h hok
  | reset x =>
    rw [← Option.some_inj.1 hs]
    exact inv_reset k h hok

/-- In a run in which no event is taken and no cell reset under a hit in progress, no cell waits for
an event that is not in the queue. -/
theorem not_stuck {s : Threads C} (h : Machine.Run (step k) (Allowed k) {} s) (x : CellId C) :
    NotStuck k s x := by
  have hinv : Inv k s := by
    refine h.invariant (fun x hx => ?_) fun a s s' hI hok hs => inv_step k hI hok hs
    unfold Waits status at hx
    split_ifs at hx <;> simp at hx
  intro hidle hw
  refine hinv x ?_
  rwa [status, hidle]

/-- The queue is sorted by time. -/
theorem events_sorted {s : Threads C} (h : Reaches (step k) {} s) :
    s.events.Pairwise fun e e' => e.ts ≤ e'.ts := by
  refine h.invariant (I := fun s => s.events.Pairwise fun e e' => e.ts ≤ e'.ts) List.Pairwise.nil
    fun a s s' hI _ hs => ?_
  cases a with
  | hit x msg w =>
    simp only [step] at hs
    split_ifs at hs
    cases hb : (s.cells x).beginHit (k x.1) msg w with
    | none => simp [hb] at hs
    | some p =>
      obtain ⟨y, te, newState⟩ := p
      simp only [hb, Option.some.injEq] at hs
      subst hs
      cases te with
      | none => exact hI
      | some t => exact Engine.pushEvent_sorted hI
  | assign x =>
    simp only [step] at hs
    cases hb : s.hitting x with
    | none => simp [hb] at hs
    | some b =>
      simp only [hb, Option.some.injEq] at hs
      subst hs
      exact hI
  | worker now =>
    rw [← Option.some_inj.1 hs]
    exact hI.sublist (List.dropWhile_sublist _)
  | reset x =>
    rw [← Option.some_inj.1 hs]
    exact hI

/-- If a pass takes the event of a hit that is about to assign a status that waits for it, the cell
is stuck as soon as the hit is over. -/
theorem stuck_after_worker {s : Threads C} (h : Reaches (step k) {} s) {x : CellId C} {b : Bool}
    {now : ℤ} (hb : s.hitting x = some b) (hw : Waits k s x b) (hnow : (s.cells x).tEvent < now) :
    ∃ s₁ s₂, step k (.worker now) s = some s₁ ∧ step k (.assign x) s₁ = some s₂ ∧
      ¬NotStuck k s₂ x := by
  have hassign : ∀ y : Cell, (y.assign b).1 = { y with on := b } := by
    intro y
    unfold Cell.assign
    split_ifs with heq <;> simp [heq]
  refine ⟨_, _, rfl, by simp only [step, hb]; rfl, fun hns => ?_⟩
  obtain ⟨ev, hev, -, hts⟩ := hns (by simp) (by simpa [Waits, hassign] using hw)
  simp only [Function.update_self, hassign, deliver_eq] at hts
  simp only [(Engine.due_eq_filter now (events_sorted k h)).2, List.mem_filter,
    Bool.not_eq_true', decide_eq_false_iff_not] at hev
  omega

end Threads

/-! ## A cell that never turns off -/

/-- A condition that is on for a second after each message. -/
def briefConfig (_ : Unit) : CondConfig :=
  { name := "a", severity := .debug, anySrc := true, e := Regex.literal "a", ts := 0,
    persistent := false }

/-- A message of time 0 hits the cell at time 5, and the worker takes the event before the hit turns
the cell on. -/
theorem cell_stuck : ∃ s, Reaches (Threads.step briefConfig) {} s ∧
    ¬Threads.NotStuck briefConfig s ((), 0, 0) := by
  refine ⟨_, reaches_exec [.hit ((), 0, 0) ⟨.error, "x", "", "a", 0⟩ {}, .worker 5,
    .assign ((), 0, 0)] rfl, fun h => ?_⟩
  obtain ⟨ev, hev, -⟩ := h rfl (by simp [Threads.Waits, briefConfig]; rfl)
  cases hev

/-- A hit that is over before the worker comes. -/
theorem not_stuck_first : ∃ s,
    Machine.Run (Threads.step briefConfig) (Threads.Allowed briefConfig) {} s ∧
    (s.cells ((), 0, 0)).on = true ∧ Threads.NotStuck briefConfig s ((), 0, 0) := by
  have h₁ : Machine.Run (Threads.step briefConfig) (Threads.Allowed briefConfig) {} _ :=
    Machine.Run.next .refl (a := .hit ((), 0, 0) ⟨.error, "x", "", "a", 0⟩ {}) trivial rfl
  have h₂ := h₁.next (a := .assign ((), 0, 0)) trivial rfl
  exact ⟨_, h₂, rfl, Threads.not_stuck briefConfig h₂ ((), 0, 0)⟩

end MfExtensions
