import MfExtensions.Engine
import MfExtensions.Lib.Machine

/-!
# The cells and the timing events, thread by thread

A hit sets the time of a cell's event and pushes the event while it holds the lock of the timing
events, and assigns `on` after it released it; the event worker holds the lock while it delivers
the events that are due, and a reset takes no lock. So a hit is two actions, `hit` up to the end
of its critical section and `assign`, and others may come between them.
-/

namespace MfExtensions

namespace Cell

/-- `ma_cell::hit` up to the end of its critical section: the cell, the time of the event pushed
and the status still to be assigned, `none` where the code reads the front of an empty list. -/
def beginHit (k : CondConfig) (msg : Msg) (w : Smatch) (x : Cell) :
    Option (Cell × Option ℤ × Option Bool) :=
  let msgs := x.msgs ++ [msg]
  if x.on && k.persistent then
    some ({ x with what := w, msgs := msgs.tail }, none, none)
  else
    match popExpired msg.time k.ts msgs with
    | none => none
    | some fresh =>
      let msgs := popExcess (sizeT k.tc) fresh
      if msgs.length = sizeT k.tc then
        match nextEvent k.ts msgs with
        | none => none
        | some t => some ({ x with msgs, what := w, tEvent := t }, some t, some k.atLeast)
      else if !k.atLeast then
        match nextEvent k.ts msgs with
        | none => none
        | some t => some ({ x with msgs, what := w, tEvent := t }, some t, some false)
      else
        some ({ x with msgs, what := w }, none, some false)

/-- The rest of `ma_cell::hit`. -/
def assign (newState : Bool) (x : Cell) : Cell × Bool :=
  if newState = x.on then (x, false) else ({ x with on := newState }, true)

end Cell

/-- A cell of a condition, by its source and target index. -/
abbrev CellId (C : Type) := C × ℕ × ℕ

def TimingEvent.cell {C : Type} (ev : TimingEvent C) : CellId C := (ev.cond, ev.sIdx, ev.tIdx)

/-- The cells and the queue. `hitting` is the status a hit of the cell is about to assign, if one
is in progress; `captured` is a history nothing reads: whether a message came to the cell since
its last reset. -/
structure Threads (C : Type) where
  cells : CellId C → Cell := fun _ => {}
  hitting : CellId C → Option Bool := fun _ => none
  captured : CellId C → Bool := fun _ => false
  events : List (TimingEvent C) := []

inductive ThreadAct (C : Type)
  | hit (x : CellId C) (msg : Msg) (w : Smatch)
  | assign (x : CellId C)
  | worker (now : ℤ)
  | reset (x : CellId C)

namespace Threads

variable {C : Type} [DecidableEq C] (k : C → CondConfig)

/-- Deliver events to their cells, one after the other. -/
def deliver : List (TimingEvent C) → (CellId C → Cell) → CellId C → Cell
  | [], cells => cells
  | ev :: evs, cells =>
    deliver evs (Function.update cells ev.cell ((cells ev.cell).event (k ev.cond) ev.ts).1)

/-- The state after an action, `none` if it is not possible: a cell is hit by one thread at a
time. -/
def step : ThreadAct C → Threads C → Option (Threads C)
  | .hit x msg w, s =>
    if (s.hitting x).isSome then none
    else
      match (s.cells x).beginHit (k x.1) msg w with
      | none => none
      | some (y, te, newState) =>
        some {
          cells := Function.update s.cells x y
          hitting := Function.update s.hitting x newState
          captured := Function.update s.captured x true
          events := te.elim s.events fun t => Engine.pushEvent ⟨t, x.1, x.2.1, x.2.2⟩ s.events }
  | .assign x, s =>
    match s.hitting x with
    | none => none
    | some newState =>
      some { s with
        cells := Function.update s.cells x ((s.cells x).assign newState).1
        hitting := Function.update s.hitting x none }
  | .worker now, s =>
    some { s with
      cells := deliver k (s.events.takeWhile fun ev => ev.ts < now) s.cells
      events := s.events.dropWhile fun ev => ev.ts < now }
  | .reset x, s =>
    some { s with
      cells := Function.update s.cells x (s.cells x).reset
      captured := Function.update s.captured x false }

end Threads

end MfExtensions
