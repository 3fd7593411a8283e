import Mathlib.Logic.Function.Basic
import MfExtensions.UdpRoute

/-!
# The UDP link

Processes with an `ELUDP` each, one `UDPReceiver`, and a network between them that loses datagrams,
hands some out twice and in any order.
-/

namespace MfExtensions

/-- An `ELUDP`, with a history that nothing reads: the messages that were logged. -/
structure LinkSender where
  sender : UdpSender
  route : UdpRoute := {}
  logged : List ErrorObj := []

/-- `wire` holds the datagrams on their way, and `emitted` what the receiver emitted. -/
structure UdpLink (I : Type) where
  senders : I → LinkSender
  wire : List Str := []
  emitted : List QtMfMsg := []

inductive LinkAct (I : Type)
  /-- a message is logged; `socket`, `ready` and `sts` are as in a `RouteCall` -/
  | log (i : I) (e : ErrorObj) (socket : ℤ) (ready : Bool) (sts : ℤ)
  | lose (n : ℕ)
  | duplicate (n : ℕ)
  | receive (n fuel : ℕ)

/-- What is outside of the repository, the configuration of the destinations, and the size of the
buffer that the receiver reads a datagram into. -/
structure LinkConfig (Tm : Type) where
  mf : MfLib
  lib : UdpLib Tm
  errorMax : Int32 := 0
  errorReportBackoffFactor : Int32 := 100
  msgMax : ℕ

namespace UdpLink

variable {I Tm : Type} (k : LinkConfig Tm)

def routeConfig (u : UdpSender) : UdpRouteConfig where
  errorMax := k.errorMax
  errorReportBackoffFactor := k.errorReportBackoffFactor
  pid := u.pid

/-- `fillPrefix`, `fillUsrMsg` and `routePayload` for a message. -/
def logMsg (e : ErrorObj) (socket : ℤ) (ready : Bool) (sts : ℤ) (x : LinkSender) :
    Option LinkSender := do
  let (pre, sender) ← x.sender.fillPrefix k.mf e
  let route ← x.route.routePayload (routeConfig k x.sender)
    { text := pre ++ UdpSender.fillUsrMsg e, socket, ready, sts }
  return { sender, route, logged := x.logged ++ [e] }

/-- The datagrams `sendto` took in a call. -/
def taken (x x' : LinkSender) : List Str :=
  ((x'.route.sent.drop x.route.sent.length).filter (0 ≤ ·.2)).map Prod.fst

/-- One round of `run` with a datagram: nothing comes after an exception or a search that does not
end. -/
def receive (datagram : Str) (fuel : ℕ) (s : UdpLink I) : Option (UdpLink I) :=
  let message := datagram.take k.msgMax
  if UdpReceiver.validatePacket message then
    match UdpReceiver.readMsg k.lib fuel message with
    | some (.ok msg) => some { s with emitted := s.emitted ++ [msg] }
    | _ => none
  else some s

def step [DecidableEq I] : LinkAct I → UdpLink I → Option (UdpLink I)
  | .log i e socket ready sts, s => do
    let x ← logMsg k e socket ready sts (s.senders i)
    return { s with
      senders := Function.update s.senders i x
      wire := s.wire ++ taken (s.senders i) x }
  | .lose n, s => some { s with wire := s.wire.eraseIdx n }
  | .duplicate n, s => do
    let datagram ← s.wire[n]?
    return { s with wire := s.wire ++ [datagram] }
  | .receive n fuel, s => do
    let datagram ← s.wire[n]?
    receive k datagram fuel { s with wire := s.wire.eraseIdx n }

/-- The processes as they start; an `ELUDP` counts from 0. -/
def init (u : I → UdpSender) : UdpLink I where
  senders i := { sender := { u i with seqNum := 0 } }

end UdpLink

end MfExtensions
