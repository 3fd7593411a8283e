import MfExtensions.Smtp
import MfExtensions.Upload

/-!
# The mails

What `send_message_` makes of the buffer and gives to the mail library, and how a mail is read at
the other end.
-/

namespace MfExtensions

/-- The members that a mail is made with. -/
structure MailConfig extends SmtpConfig where
  toAddresses : List Str := []
  fromAddress : Str
  subject : Str := []
  messagePrefix : Str := []

/-- What the system says while a mail is made: what `strftime` writes each time, the id of the
message and the process. -/
structure Moment where
  date : Str
  subjectDate : Str
  messageId : Str
  pid : ℤ

namespace MailConfig

def crlf : Str := ['\r', '\n']

/-- `dateTimeNow_`: a string of 32 characters, of which `strftime` writes the first ones. -/
def dateTimeNow (date : Str) : Str := date ++ List.replicate (32 - date.length) (Char.ofNat 0)

/-- `from_.substr(from_.find('@') + 1)`, where `npos + 1` is 0. -/
def domain (from_ : Str) : Str :=
  if '@' ∈ from_ then (from_.dropWhile (· ≠ '@')).tail else from_

variable (k : MailConfig)

def headerLines (t : Moment) : List Str :=
  ["Date: ".toList ++ dateTimeNow t.date,
    "To: ".toList ++ ", ".toList.intercalate k.toAddresses,
    "From: ".toList ++ k.fromAddress,
    "Message-ID:  <".toList ++ t.messageId ++ "@".toList ++ domain k.fromAddress ++ ">".toList,
    "Subject: ".toList ++ k.subject ++ " @ ".toList ++ dateTimeNow t.subjectDate ++
      " from PID ".toList ++ number t.pid,
    "Content-Type: text/html; charset=\"UTF-8\"".toList]

def headers (t : Moment) : Str := (k.headerLines t).flatMap (· ++ crlf) ++ crlf

def opening (messagePrefix : Str) : Str :=
  "<html><body><p>".toList ++ messagePrefix ++ "</p>".toList

def closing : Str := "</body></html>".toList

/-- `payloadWithHeaders`. -/
def mail (t : Moment) (payload : Str) : Str :=
  k.headers t ++ opening k.messagePrefix ++ payload ++ closing

end MailConfig

/-! ## The destination with its mails -/

/-- The system and the mail library while a mail is sent: the calls of `payload_source`. -/
structure Sending where
  moment : Moment
  calls : List (ℕ × ℕ)

/-- An `ELSMTP`, with what was routed to it and what the library took of each mail. -/
structure Mailed where
  smtp : Elsmtp := {}
  routed : List (Str × ELsev) := []
  mails : List Str := []

namespace Mailed

/-- What the library takes of the mail it is given. -/
def post (k : MailConfig) (x : Sending) (payload : Str) : Option Str :=
  let payloadWithHeaders := k.mail x.moment payload
  (UploadStatus.upload x.calls (.start payloadWithHeaders payloadWithHeaders.length)).map
    fun u => u.1.flatMap Piece.copied

def step (k : MailConfig) (a : SmtpAct × Sending) (s : Mailed) : Option Mailed := do
  let smtp ← Elsmtp.step k.toSmtpConfig a.1 s.smtp
  match a.1 with
  | .routePayload text sev => return { s with smtp, routed := s.routed ++ [(text, sev)] }
  | .send thread =>
    match s.smtp.threads[thread]? with
    | some (.sending payload) =>
      let mail ← post k a.2 payload
      return { s with smtp, mails := s.mails ++ [mail] }
    | _ => none
  | _ => return { s with smtp }

end Mailed

/-! ## The other end -/

/-- A message as it is read in a mail. -/
structure MailedMsg where
  color : Str
  text : Str
  deriving DecidableEq

namespace MailedMsg

def entity (name : Str) : Str :=
  if name = "lt".toList then ['<']
  else if name = "gt".toList then ['>']
  else if name = "amp".toList then ['&']
  else if name = "quot".toList then ['"']
  else '&' :: name ++ [';']

/-- The text that is written with entities; inside of one, `name` is its name so far. -/
def unescape : Option Str → Str → Str
  | none, [] => []
  | some name, [] => '&' :: name
  | none, c :: cs => if c = '&' then unescape (some []) cs else c :: unescape none cs
  | some name, c :: cs =>
    if c = ';' then entity name ++ unescape none cs else unescape (some (name ++ [c])) cs

/-- What comes after `pre`. -/
def behind (pre s : Str) : Option Str :=
  if pre.isPrefixOf s then some (s.drop pre.length) else none

/-- The first message, and what comes after it. -/
def read (s : Str) : Option (MailedMsg × Str) := do
  let s ← behind "<font color=".toList s
  let color := s.takeWhile (· ≠ '>')
  let s ← behind ">".toList (s.drop color.length)
  let s ← behind "<pre>".toList s
  let text := s.takeWhile (· ≠ '<')
  let s ← behind "</pre></font>".toList (s.drop text.length)
  return ({ color, text := unescape none text }, s)

/-- The messages up to the end of the mail. -/
def readAll : ℕ → Str → Option (List MailedMsg)
  | 0, _ => none
  | n + 1, s =>
    if s = MailConfig.closing then some []
    else do
      let (m, s) ← read s
      let ms ← readAll n s
      return m :: ms

/-- The body of a mail, behind the first empty line; `line` is the line so far. -/
def body : Str → Str → Option Str
  | _, [] => none
  | line, c :: cs =>
    if c = '\n' then if line = ['\r'] then some cs else body [] cs
    else body (line ++ [c]) cs

/-- The messages of a mail, or `none` where it is not what `send_message_` makes. -/
def readMail (messagePrefix mail : Str) : Option (List MailedMsg) := do
  let s ← body [] mail
  let s ← behind (MailConfig.opening messagePrefix) s
  readAll (s.length + 1) s

end MailedMsg

end MfExtensions
