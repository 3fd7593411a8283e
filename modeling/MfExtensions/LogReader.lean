import MfExtensions.QtMfMsg

/-!
# The log reader

An iteration of `LogReader::run` opens the log, looks from `pos_` on for a line with `%MSG` in it,
and emits the message that starts there. It is given what is visible of the log. The two loops are
given a number of rounds; `none` stands for a loop that takes more.
-/

namespace MfExtensions

/-- What the groups of `metadata_1` match. -/
structure Metadata where
  sev : Str
  category : Str
  application : Str
  date : Str
  eventID : Str

/-- What `LogReader` calls outside the repository, `Tm` being a `struct tm`. -/
structure LogLib (Tm : Type) where
  /-- `regex_search(line, what_, metadata_1)` -/
  metadata1 : Str → Option Metadata
  /-- what `strptime(s, "%d-%b-%Y %H:%M:%S", &tm)` writes to `tm` -/
  strptime : Str → Tm → Tm
  /-- `mktime`, with `tm_isdst = -1` -/
  mktime : Tm → ℤ
  /-- a `struct tm` as it is declared -/
  tm : Tm
  timestamp : ℤ → Str

/-- A `std::ifstream` on an open file. -/
structure Log where
  file : Str
  pos : ℕ := 0
  eof : Bool := false
  fail : Bool := false

namespace Log

def good (log : Log) : Bool := !log.eof && !log.fail

/-- `std::getline`: `line` keeps its value if the stream is not good. -/
def getline (log : Log) (line : Str) : Log × Str :=
  if log.good then
    let rest := log.file.drop log.pos
    let line := rest.takeWhile (· ≠ '\n')
    if line.length = rest.length then
      ({ log with pos := log.pos + line.length, eof := true, fail := line.isEmpty }, line)
    else ({ log with pos := log.pos + line.length + 1 }, line)
  else ({ log with fail := true }, line)

def seekg (pos : ℕ) (log : Log) : Log :=
  if log.fail then log else { log with pos, eof := false }

def clear (log : Log) : Log := { log with eof := false, fail := false }

end Log

/-- A `LogReader`, and what it has emitted. -/
structure LogReader where
  pos : ℕ := 0
  counter : ℕ := 0
  emitted : List QtMfMsg := []

namespace LogReader

/-- `line.find("%MSG") != npos`. -/
def hasMsg (line : Str) : Bool := line.tails.any ("%MSG".toList.isPrefixOf ·)

variable {Tm : Type} (lib : LogLib Tm) (filename : Str)

/-- The `switch` on `value[0]`. -/
def severity (value : Str) : SevCode :=
  match value.headD (Char.ofNat 0) with
  | 'e' => .error
  | 'w' => .warning
  | 'i' => .info
  | 'd' => .debug
  | _ => .error

/-- The variables `read_next` fills from the first line. -/
structure Header where
  category : Str := []
  application : Str := []
  eventID : Str := []
  tvSec : ℤ := 0
  sev : SevCode := .error

def readHeader (line : Str) : Header :=
  match lib.metadata1 line with
  | none => {}
  | some what => {
      sev := severity what.sev
      tvSec := lib.mktime (lib.strptime (cStr what.date) lib.tm)
      category := what.category
      application := what.application
      eventID := what.eventID }

def toMsg (counter : ℕ) (h : Header) (body : Str) : QtMfMsg :=
  { QtMfMsg.mk' [] h.category h.application 0 h.tvSec with sev := h.sev }
    |>.setEventID h.eventID
    |>.setMessage filename counter body
    |>.updateText lib.timestamp

/-- The loop of `read_next`. -/
def readBody : ℕ → Log → Str → Str → Option (Str × Log)
  | 0, _, _, _ => none
  | fuel + 1, log, line, body =>
    if log.eof || hasMsg line then some (body, log)
    else
      let (log, next) := log.getline line
      readBody fuel log next (body ++ line)

def readNext (fuel counter : ℕ) (log : Log) : Option (QtMfMsg × Log) := do
  let (log, line) := log.getline []
  let h := readHeader lib line
  let (log, line) := log.getline line
  let (body, log) ← readBody fuel log line []
  return (toMsg lib filename counter h body, log)

/-- The loop `while (!msgFound)`. -/
def scan : ℕ → Log → Option (Bool × Log)
  | 0, _ => none
  | fuel + 1, log =>
    if log.eof then some (false, log)
    else
      let pos := log.pos
      let (log, line) := log.getline []
      if hasMsg line then some (true, log.seekg pos) else scan fuel log

/-- An iteration of `run`, `file` being what is visible of the log. -/
def runOnce (file : Str) (r : LogReader) : Option LogReader := do
  let log := Log.seekg r.pos { file }
  if log.good then
    let (msgFound, log) ← scan (file.length + 2) log
    if msgFound then
      let (msg, log) ← readNext lib filename (file.length + 2) r.counter log
      return { pos := log.clear.pos, counter := r.counter + 1, emitted := r.emitted ++ [msg] }
    else return { r with pos := log.clear.pos }
  else return r

/-- The reader after `n` iterations, `looks i` being what is visible at the `i`-th. -/
def after (looks : ℕ → Str) : ℕ → Option LogReader
  | 0 => some {}
  | n + 1 => do runOnce lib filename (looks n) (← after looks n)

end LogReader

end MfExtensions
