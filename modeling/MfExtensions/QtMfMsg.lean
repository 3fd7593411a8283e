import MfExtensions.Types

/-!
# Messages of the viewer

`qt_mf_msg`. A string is the list of its characters; a `QString` made from a C string ends at the
first NUL.
-/

namespace MfExtensions

abbrev Str := List Char

/-- The levels of an `mf::ELseverityLevel`. -/
inductive ELsev
  | noValueAssigned
  | zeroSeverity
  | success
  | info
  | warning
  | error
  | unspecified
  | severe
  | highestSeverity
  deriving DecidableEq

/-- `s.c_str()`. -/
def cStr (s : Str) : Str := s.takeWhile (· ≠ Char.ofNat 0)

/-- `QString::toHtmlEscaped`. -/
def htmlEscaped (s : Str) : Str :=
  s.flatMap fun c =>
    if c = '<' then "&lt;".toList
    else if c = '>' then "&gt;".toList
    else if c = '&' then "&amp;".toList
    else if c = '"' then "&quot;".toList
    else [c]

/-- `std::to_string` and `QString::number`. -/
def number (n : ℤ) : Str := (toString n).toList

structure QtMfMsg where
  text : Str := []
  shortText : Str := []
  sev : SevCode := .error
  host : Str
  cat : Str
  app : Str
  /-- `time_.tv_sec` -/
  time : ℤ
  msg : Str := []
  application : Str
  pid : Str
  hostaddr : Str := []
  file : Str := []
  line : Str := []
  module : Str := []
  eventID : Str := []
  sourceType : Str := []
  sourceSequence : ℤ := 0

namespace QtMfMsg

/-- The constructor. -/
def mk' (hostname category application : Str) (pid time : ℤ) : QtMfMsg where
  host := cStr hostname
  cat := cStr category
  app := cStr (application ++ " (".toList ++ number pid ++ ")".toList)
  time
  application := htmlEscaped (cStr application)
  pid := number pid

def setSeverity (sev : ELsev) (m : QtMfMsg) : QtMfMsg :=
  match sev with
  | .success | .zeroSeverity | .unspecified => { m with sev := .debug }
  | .info => { m with sev := .info }
  | .warning => { m with sev := .warning }
  | .error | .severe | .highestSeverity => { m with sev := .error }
  | .noValueAssigned => m

def setMessage (pre : Str) (iteration : ℤ) (msg : Str) (m : QtMfMsg) : QtMfMsg :=
  { m with
    sourceType := htmlEscaped (cStr pre)
    sourceSequence := iteration
    msg := htmlEscaped (cStr msg) }

def setHostAddr (s : Str) (m : QtMfMsg) : QtMfMsg := { m with hostaddr := htmlEscaped (cStr s) }

def setFileName (s : Str) (m : QtMfMsg) : QtMfMsg := { m with file := htmlEscaped (cStr s) }

def setLineNumber (s : Str) (m : QtMfMsg) : QtMfMsg := { m with line := htmlEscaped (cStr s) }

def setModule (s : Str) (m : QtMfMsg) : QtMfMsg := { m with module := htmlEscaped (cStr s) }

def setEventID (s : Str) (m : QtMfMsg) : QtMfMsg := { m with eventID := htmlEscaped (cStr s) }

/-- The color and the name a severity is shown with. -/
def sevFormat : SevCode → Str × Str
  | .debug => ("#505050>".toList, "Debug".toList)
  | .info => ("#008000>".toList, "Info".toList)
  | .warning => ("#E08000>".toList, "Warning".toList)
  | .error => ("#FF0000>".toList, "Error".toList)

/-- `updateText`; `timestamp` is the local time as `strftime` prints it. -/
def updateText (timestamp : ℤ → Str) (m : QtMfMsg) : QtMfMsg :=
  let (color, sevName) := sevFormat m.sev
  let text := "<font color=".toList ++ color
  { m with
    shortText := text ++ "<pre style=\"margin-top: 0; margin-bottom: 0;\">".toList ++ m.msg ++
      "</pre></font>".toList
    text := text ++ "<pre style=\"width: 100%;\">".toList ++ sevName ++ " / ".toList ++
      htmlEscaped m.cat ++ "<br>".toList ++ htmlEscaped (timestamp m.time) ++ "<br>".toList ++
      htmlEscaped m.host ++ " (".toList ++ m.hostaddr ++ ")<br>".toList ++ m.sourceType ++
      " ".toList ++ number m.sourceSequence ++ " / ".toList ++ "PID ".toList ++ m.pid ++
      (if m.file ≠ [] then " / ".toList ++ m.file ++ ":".toList ++ m.line else []) ++
      "<br>".toList ++ m.application ++ " / ".toList ++ m.module ++ " / ".toList ++ m.eventID ++
      "<br>".toList ++ m.msg ++ "</pre></font>".toList }

/-- `text(mode)`. -/
def text' (mode : Bool) (m : QtMfMsg) : Str := if mode then m.shortText else m.text

end QtMfMsg

end MfExtensions
