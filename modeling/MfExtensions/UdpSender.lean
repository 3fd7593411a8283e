import MfExtensions.UdpReceiver

/-!
# The UDP destination

`ELUDP`: what `fillPrefix` and `fillUsrMsg` write for a message, and the packet `routePayload`
sends.
-/

namespace MfExtensions

/-- What `ELUDP` calls outside the repository. -/
structure MfLib where
  /-- `format_.timestamp` -/
  timestamp : ℤ → Str
  /-- `ELseverityLevel::getName` -/
  getName : ELsev → Str
  /-- `mf::GetIteration` -/
  iteration : Str

/-- A `mf::ErrorObj`. -/
structure ErrorObj where
  timestamp : ℤ
  severity : ELsev
  id : Str
  module : Str
  filename : Str
  lineNumber : ℤ
  items : List Str

/-- What `fillPrefix` reads of an `ELUDP`; it counts `seqNum` up. -/
structure UdpSender where
  seqNum : ℤ
  pid : ℤ
  hostname : Str
  hostaddr : Str
  app : Str
  filenameDelimit : Str

namespace UdpSender

/-- `std::replace` of the separator by an exclamation mark. -/
def bang (s : Str) : Str := s.map fun c => if c = '|' then '!' else c

/-- `strrchr(s, c) + 1`: what follows the last `c`. -/
def afterLast (c : Char) (s : Str) : Option Str :=
  if s.contains c then some ((s.reverse.takeWhile (· ≠ c)).reverse) else none

/-- `strstr`: the suffix of `s` from the first `t` on. -/
def strstr (s t : Str) : Option Str := s.tails.find? fun u => t.isPrefixOf u

/-- The file name without what `filename_delimit_` cuts off, `none` where the code goes past the
NUL that ends the name. -/
def trimFilename (delimit filename : Str) : Option Str :=
  match delimit with
  | [] => some filename
  | [c] =>
    if c = Char.ofNat 0 then none -- `strrchr` finds the NUL at the end
    else some ((afterLast c (cStr filename)).getD filename)
  | _ =>
    match strstr (cStr filename) (cStr delimit) with
    | none => some filename
    | some cp =>
      match (cp.drop (delimit.length - 1)).dropWhile (· ≠ '/') with
      | [] => none
      | _ :: cp => some cp

variable (mf : MfLib)

def fillPrefix (e : ErrorObj) (s : UdpSender) : Option (Str × UdpSender) := do
  let file ← trimFilename s.filenameDelimit e.filename
  let seqNum := s.seqNum + 1
  return (mf.timestamp e.timestamp ++ '|' :: number seqNum ++ '|' :: s.hostname ++
    '|' :: s.hostaddr ++ '|' :: mf.getName e.severity ++ '|' :: bang e.id ++ '|' :: bang s.app ++
    '|' :: number s.pid ++ '|' :: mf.iteration ++ '|' :: bang e.module ++ '|' :: file ++
    '|' :: number e.lineNumber ++ ['|'], { s with seqNum })

def fillUsrMsg (e : ErrorObj) : Str :=
  match e.items.flatten with
  | '\n' :: usrMsg => usrMsg
  | usrMsg => usrMsg

/-- The packet `routePayload` sends for a message. -/
def packet (e : ErrorObj) (s : UdpSender) : Option (Str × UdpSender) := do
  let (pre, s) ← fillPrefix mf e s
  return ("UDPMFMESSAGE".toList ++ number s.pid ++ '|' :: pre ++ fillUsrMsg e, s)

end UdpSender

end MfExtensions
