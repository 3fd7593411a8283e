import MfExtensions.QtMfMsg

/-!
# The UDP receiver

`tokenize_`, `validate_packet` and `read_msg`. The inner loop of the timestamp search has a branch
that changes nothing, so the search is given a number of rounds for each token, and a search that
runs out of them for every number does not end.
-/

namespace MfExtensions

/-- What `read_msg` calls outside the repository, `Tm` being a `struct tm`. -/
structure UdpLib (Tm : Type) where
  /-- `strptime(s, "%d-%b-%Y %H:%M:%S", &tm)`: what it writes to `tm`, and whether it succeeds -/
  strptime : Str → (Tm → Tm) × Bool
  /-- `mktime`, with `tm_isdst = -1` -/
  mktime : Tm → ℤ
  /-- a `struct tm` as it is declared -/
  tm : Tm
  /-- `ELseverityLevel` of a name -/
  elSeverity : Str → ELsev
  /-- the default `ELseverityLevel` -/
  elDefault : ELsev
  timestamp : ℤ → Str

/-- Why `std::stoi` and `std::stol` throw. -/
inductive StoErr
  | invalidArgument
  | outOfRange
  deriving DecidableEq

def isSpace (c : Char) : Bool := c = ' ' || (9 ≤ c.toNat && c.toNat ≤ 13)

def isDigit (c : Char) : Bool := '0' ≤ c && c ≤ '9'

def decimal (ds : Str) : ℤ := ds.foldl (fun n c => 10 * n + (c.toNat - '0'.toNat : ℕ)) 0

/-- The number `strtol` finds at the start of a string: white space, a sign, digits. -/
def strtol (s : Str) : Option ℤ :=
  let s := s.dropWhile isSpace
  let (neg, s) := match s with
    | '-' :: s => (true, s)
    | '+' :: s => (false, s)
    | s => (false, s)
  let ds := s.takeWhile isDigit
  if ds.isEmpty then none else some (if neg then -decimal ds else decimal ds)

/-- `std::stoi` and `std::stol`, for an integer type of `w` bits. -/
def sto (w : ℕ) (s : Str) : Except StoErr ℤ :=
  match strtol s with
  | none => .error .invalidArgument
  | some n => if -2 ^ (w - 1) ≤ n ∧ n < 2 ^ (w - 1) then .ok n else .error .outOfRange

def stoi : Str → Except StoErr ℤ := sto 32

def stol : Str → Except StoErr ℤ := sto 64

namespace UdpReceiver

/-- `tokenize_`: what stands before each separator, and the rest if it is not empty. -/
def tokenize : Str → List Str
  | [] => []
  | c :: cs =>
    if c = '|' then [] :: tokenize cs
    else
      match tokenize cs with
      | [] => [[c]]
      | t :: ts =>
        -- the tokens of a rest that starts with a separator start with an empty one
        (c :: t) :: ts

def validatePacket (input : Str) : Bool :=
  input.tails.any ("MF".toList.isPrefixOf ·) && input.contains '|'

variable {Tm : Type} (lib : UdpLib Tm)

/-- The inner loop on what is left of a token: what `tm` is, and whether a timestamp was found. -/
def searchToken : ℕ → Tm → Str → Option (Tm × Bool)
  | 0, _, _ => none
  | fuel + 1, tm, s =>
    if s.isEmpty then some (tm, false)
    else
      match s.dropWhile (!isDigit ·) with
      | [] => searchToken fuel tm s -- `find_first_of` finds nothing, and there is no `else`
      | c :: cs =>
        let (write, found) := lib.strptime (cStr (c :: cs))
        if found then some (write tm, true) else searchToken fuel (write tm) cs

/-- The loop over the tokens: what `tm` is, and the tokens after the one with the timestamp. -/
def searchTokens (fuel : ℕ) : Tm → List Str → Option (Tm × List Str)
  | tm, [] => some (tm, [])
  | tm, t :: ts => do
    let (tm, found) ← searchToken lib fuel tm t
    if found then return (tm, ts) else searchTokens fuel tm ts

/-- `it != tokens.end() && ++it != tokens.end()`: the iterator, and the token it then points at. -/
def advance : List Str → List Str × Option Str
  | [] => ([], none)
  | _ :: ts => (ts, ts.head?)

/-- Read a number from the next token, and go back if there is none. -/
def readNumber (conv : Str → Except StoErr ℤ) (it : List Str) : Except StoErr (ℤ × List Str) :=
  match advance it with
  | (next, none) => .ok (0, next)
  | (next, some t) =>
    match conv t with
    | .ok n => .ok (n, next)
    | .error .invalidArgument => .ok (0, it)
    | .error .outOfRange => .error .outOfRange

/-- Read a string from the next token. -/
def readField (it : List Str) : Str × List Str := ((advance it).2.getD [], (advance it).1)

/-- The fields `read_msg` reads. -/
structure Fields where
  hostname : Str := []
  category : Str := []
  application : Str := []
  message : Str := []
  hostaddr : Str := []
  file : Str := []
  line : Str := []
  module : Str := []
  eventID : Str := []
  sev : ELsev
  tvSec : ℤ := 0
  pid : ℤ := 0
  seqNum : ℤ := 0

/-- The rest of the tokens, joined by the separator. -/
def readMessage : List Str → Str
  | [] => []
  | _ :: ts => "|".toList.intercalate ts

/-- The fields from the iterator past the token with the timestamp. -/
def readFields (tvSec : ℤ) (it : List Str) : Except StoErr Fields := do
  let (seqNum, it) ← readNumber stoi it
  let (hostname, it) := readField it
  let (hostaddr, it) := readField it
  let sev := match (advance it).2 with
    | some t => lib.elSeverity t
    | none => lib.elDefault
  let it := (advance it).1
  let (category, it) := readField it
  let (application, it) := readField it
  let (pid, it) ← readNumber stol it
  let (eventID, it) := readField it
  let (module, it) := readField it
  let (file, it) := readField it
  let (line, it) := readField it
  return { hostname, category, application, message := readMessage it, hostaddr, file, line,
           module, eventID, sev, tvSec, pid := pid.bmod (2 ^ 32), seqNum }

def toMsg (f : Fields) : QtMfMsg :=
  (QtMfMsg.mk' f.hostname f.category f.application f.pid f.tvSec)
    |>.setSeverity f.sev
    |>.setMessage "UDPMessage".toList f.seqNum f.message
    |>.setHostAddr f.hostaddr
    |>.setFileName f.file
    |>.setLineNumber f.line
    |>.setModule f.module
    |>.setEventID f.eventID
    |>.updateText lib.timestamp

/-- `read_msg`, with `fuel` rounds for each token's search. -/
def readMsg (fuel : ℕ) (input : Str) : Option (Except StoErr QtMfMsg) :=
  match tokenize input with
  | [] => some (.ok (toMsg lib { sev := lib.elDefault }))
  | tokens => do
    let (tm, it) ← searchTokens lib fuel lib.tm tokens
    return (readFields lib (lib.mktime tm) it).map (toMsg lib)

end UdpReceiver

end MfExtensions
