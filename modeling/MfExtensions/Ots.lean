import MfExtensions.UdpSender

/-!
# The OTS destination

`ELOTS::fillPrefix` writes a message by a format string, which is read up to its first NUL. `past`
is what stands in memory behind the end of a file name: `%f` prints it where the delimiter makes
it run past the end.
-/

namespace MfExtensions

/-- Why `std::string::compare` throws. -/
inductive StringErr
  | outOfRange
  deriving DecidableEq

/-- What `fillPrefix` reads of an `ELOTS`. -/
structure Elots where
  pid : ℤ
  hostname : Str
  hostaddr : Str
  app : Str
  formatString : Str
  filenameDelimit : Str

namespace Elots

/-- `s.compare(pos, 1, "\n") == 0`. -/
def compareNewline (pos : ℕ) (s : Str) : Except StringErr Bool :=
  if s.length < pos then .error .outOfRange else .ok ((s.drop pos).take 1 = ['\n'])

/-- `s.size() - 1`, of an unsigned type. -/
def lastPos (s : Str) : ℕ := if s.isEmpty then 2 ^ 64 - 1 else s.length - 1

/-- A newline at the start is erased, and then one at the end. -/
def trimNewlines (s : Str) : Except StringErr Str := do
  let first ← compareNewline 0 s
  let s := if first then s.eraseIdx 0 else s
  let last ← compareNewline (lastPos s) s
  return if last then s.eraseIdx (lastPos s) else s

/-- `sev = name[0] | 0x20`. -/
def lower (name : Str) : Char := Char.ofNat ((name.headD (Char.ofNat 0)).toNat ||| 0x20)

variable (mf : MfLib) (past : Str) (e : ErrorObj) (s : Elots)

/-- What the switch prints for a directive other than `%m`. -/
def field : Char → Str
  | 'A' => s.app
  | 'a' => s.hostaddr
  | 'd' => e.module
  | 'f' => (UdpSender.trimFilename s.filenameDelimit e.filename).getD past
  | 'h' => s.hostname
  | 'L' => mf.getName e.severity
  | 'N' => e.id
  | 'P' => number s.pid
  | 'r' => mf.iteration
  | 's' => [lower (mf.getName e.severity)]
  | 'T' => mf.timestamp e.timestamp
  | 'u' => number e.lineNumber
  | '%' => ['%']
  | c => ['%', c]

/-- The variables of the loop: `ossstr` is kept from one `%m` to the next. -/
structure Printing where
  oss : Str := []
  msgPrinted : Bool := false
  ossstr : Str := []

/-- `case 'm'`. -/
def printMessage (p : Printing) : Except StringErr Printing :=
  let ossstr := p.ossstr ++ e.items.flatten
  if ossstr.isEmpty then .ok { p with msgPrinted := true, ossstr }
  else do
    let ossstr ← trimNewlines ossstr
    return { oss := p.oss ++ ossstr, msgPrinted := true, ossstr }

def printDirective (c : Char) (p : Printing) : Except StringErr Printing :=
  if c = 'm' then printMessage e p
  else .ok { p with oss := p.oss ++ field mf past e s c }

/-- The loop from the position `cp` on. -/
def printLoop : Str → Printing → Except StringErr Printing
  | [], p => .ok p
  | c :: cp, p =>
    if c ≠ '%' then printLoop cp { p with oss := p.oss ++ [c] }
    else
      match cp with
      | [] => .ok { p with oss := p.oss ++ [Char.ofNat 0] } -- `*cp` is the NUL behind the `%`
      | d :: cp => do printLoop cp (← printDirective mf past e s d p)

def fillPrefix : Except StringErr Str := do
  let p ← printLoop mf past e s (cStr s.formatString) {}
  if p.msgPrinted then return p.oss
  else return p.oss ++ (← trimNewlines (p.ossstr ++ e.items.flatten))

end Elots

end MfExtensions
