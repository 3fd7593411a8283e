import MfExtensions.Cell
import MfExtensions.Rate

/-!
# The life of a cell

A cell is hit, its timing events come back to it, and it is reset. The histories, which nothing
reads, are the messages the cell captured since its last reset, the times of the events it
scheduled that have not come back, and the last second seen: of a message, or past an event.
-/

namespace MfExtensions

structure CellRun where
  cell : Cell := {}
  captured : List Msg := []
  scheduled : List ℤ := []
  clock : ℤ

inductive CellAct
  | hit (msg : Msg) (w : Smatch)
  | event (t : ℤ)
  | reset

namespace CellRun

variable (k : CondConfig)

/-- A cell as it is built. -/
def start (clock : ℤ) : CellRun := { clock }

/-- The state after an action, `none` where the code reads the front of an empty list. -/
def step : CellAct → CellRun → Option CellRun
  | .hit msg w, s =>
    match s.cell.hit k msg w with
    | none => none
    | some (cell, te, _) =>
      some {
        cell
        captured := s.captured ++ [msg]
        scheduled := s.scheduled ++ te.toList
        clock := max s.clock msg.time }
  | .event t, s =>
    some { s with
      cell := (s.cell.event k t).1
      scheduled := s.scheduled.erase t
      clock := max s.clock (t + 1) }
  | .reset, s => some { s with cell := s.cell.reset, captured := [] }

end CellRun

end MfExtensions
