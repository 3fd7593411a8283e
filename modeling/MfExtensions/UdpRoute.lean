import MfExtensions.UdpSender
import MfExtensions.Lib.Machine

/-!
# How the UDP destination gives up

`ELUDP::routePayload` counts the failures of `sendto`, and after `error_turnoff_threshold` of them
it sends nothing any more; five successes in a row start the count again. An `int` is an `Int32`,
which wraps around. Where `reconnect_` opens no socket it ends the process, and there is no state
after it.
-/

namespace MfExtensions

/-- What `routePayload` reads of an `ELUDP` and does not write. -/
structure UdpRouteConfig where
  errorMax : Int32 := 0
  errorReportBackoffFactor : Int32 := 100
  pid : ℤ

/-- The members that `routePayload` writes. The histories, which nothing reads, are what was given
to `sendto` with what it returned, and at how many failures one was reported. -/
structure UdpRoute where
  messageSocket : ℤ := -1
  consecutiveSuccessCount : Int32 := 0
  errorCount : Int32 := 0
  nextErrorReport : Int32 := 1
  sent : List (Str × ℤ) := []
  reported : List Int32 := []

/-- A call of `routePayload`: the text of the message, what `socket` returns and whether the rest of
`reconnect_` succeeds, and what `sendto` returns, each if it is called. -/
structure RouteCall where
  text : Str
  socket : ℤ
  ready : Bool
  sts : ℤ

namespace UdpRoute

def reconnect (c : RouteCall) (s : UdpRoute) : Option UdpRoute :=
  if s.messageSocket = -1 then
    if c.socket < 0 ∨ !c.ready then none else some { s with messageSocket := c.socket }
  else some s

/-- After a failure of `sendto`. -/
def fail (k : UdpRouteConfig) (s : UdpRoute) : UdpRoute :=
  let s := { s with consecutiveSuccessCount := 0, errorCount := s.errorCount + 1 }
  if s.errorCount = s.nextErrorReport then
    { s with
      reported := s.reported ++ [s.errorCount]
      nextErrorReport := s.nextErrorReport * k.errorReportBackoffFactor }
  else s

/-- After a success. -/
def succeed (s : UdpRoute) : UdpRoute :=
  let s := { s with consecutiveSuccessCount := s.consecutiveSuccessCount + 1 }
  if s.consecutiveSuccessCount ≥ 5 then { s with errorCount := 0, nextErrorReport := 1 } else s

def packet (k : UdpRouteConfig) (text : Str) : Str :=
  "UDPMFMESSAGE".toList ++ number k.pid ++ '|' :: text

def routePayload (k : UdpRouteConfig) (c : RouteCall) (s : UdpRoute) : Option UdpRoute := do
  let s ← (if s.messageSocket = -1 then s.reconnect c else some s)
  if s.errorCount < k.errorMax ∨ k.errorMax = 0 then
    let s := { s with sent := s.sent ++ [(packet k c.text, c.sts)] }
    return if c.sts < 0 then s.fail k else s.succeed
  else return s

end UdpRoute

end MfExtensions
