import MfExtensions.MsgViewer

/-!
# The life of a throttle

A throttle is asked about messages, and switched off and on. The history, which nothing reads, is
of the messages the throttle examines while it is in use and matches: the second of each, the start
of the window it is counted in, and whether it is throttled.
-/

namespace MfExtensions

structure Examined where
  sec : ℤ
  window : ℤ
  limited : Bool

structure ThrottleRun where
  throttle : Throttle
  examined : List Examined := []

inductive ThrottleAct
  | reachLimit (name : Str) (sec : ℤ)
  | use (flag : Bool)

/-- Whether the throttle examines the messages of a name. -/
def Throttle.examines (name : Str) (x : Throttle) : Bool :=
  x.inUse && (x.expr.regexMatch (String.ofList name)).isSome

namespace ThrottleRun

/-- A throttle as it is constructed. -/
def start (expr : Regex) (limit timespan : ℤ) : ThrottleRun :=
  { throttle := { expr, limit, timespan } }

def step : ThrottleAct → ThrottleRun → Option ThrottleRun
  | .reachLimit name sec, s =>
    let (limited, x) := s.throttle.reachLimit name sec
    let seen : List Examined :=
      if s.throttle.examines name then [{ sec, window := x.lastWindowStart, limited }] else []
    some { throttle := x, examined := s.examined ++ seen }
  | .use flag, s => some { s with throttle := { s.throttle with inUse := flag } }

end ThrottleRun

end MfExtensions
