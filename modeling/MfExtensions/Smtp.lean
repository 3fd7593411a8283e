import MfExtensions.QtMfMsg
import MfExtensions.Lib.Machine

/-!
# The mail destination

`ELSMTP`: a message that passes the filters is put in a buffer, and a thread that sleeps for a while
sends what the buffer holds. `routePayload` holds the lock from its start to its end and is one
action. The thread holds it only to take the buffer, so its actions are that, the sending and the
store to `sending_thread_active_`.
-/

namespace MfExtensions

structure SmtpConfig where
  messageRequiredRegexes : List Str := []
  messageFilterRegexes : List Str := []
  /-- `std::regex_search` for the regex of a string, `none` where it is none -/
  regexSearch : Str → Str → Option Bool

namespace Elsmtp

def sevColor : ELsev → Str
  | .success | .zeroSeverity | .unspecified => "#505050>".toList
  | .info => "#008000>".toList
  | .warning => "#E08000>".toList
  | .error | .severe | .highestSeverity => "#FF0000>".toList
  | .noValueAssigned => []

def toHtml (msgString : Str) (sev : ELsev) : Str :=
  "<font color=".toList ++ sevColor sev ++ "<pre>".toList ++ htmlEscaped (cStr msgString) ++
    "</pre>".toList ++ "</font>".toList

/-- What `routePayload` asks before it takes a message. -/
def passes (k : SmtpConfig) (text : Str) : Bool :=
  (k.messageRequiredRegexes.isEmpty ||
    k.messageRequiredRegexes.any fun r => k.regexSearch r text = some true) &&
  !k.messageFilterRegexes.any fun r => k.regexSearch r text = some true

end Elsmtp

/-- Where a thread in `send_message_` is. -/
inductive SendPhase
  | sleeping
  /-- the buffer has been taken -/
  | sending (payload : Str)
  | sent
  deriving DecidableEq

/-- The members of an `ELSMTP`, its threads and whether it has been destroyed. `sent` is what was
given to `send_message`, and `accepted` a history nothing reads: the messages that were taken. -/
structure Elsmtp where
  sendingThreadActive : Bool := false
  messageContents : Str := []
  threads : List SendPhase := []
  destroyed : Bool := false
  sent : List Str := []
  accepted : List Str := []

inductive SmtpAct
  | routePayload (text : Str) (sev : ELsev)
  | swap (thread : ℕ)
  | send (thread : ℕ)
  | finish (thread : ℕ)
  /-- the destructor, which waits for `sending_thread_active_` to be false -/
  | destroy

namespace Elsmtp

def routePayload (k : SmtpConfig) (text : Str) (sev : ELsev) (s : Elsmtp) : Elsmtp :=
  if !passes k text then s
  else
    let html := toHtml text sev
    let s := { s with
      messageContents := s.messageContents ++ html
      accepted := s.accepted ++ [html] }
    if s.sendingThreadActive then s
    else { s with sendingThreadActive := true, threads := s.threads ++ [.sleeping] }

def step (k : SmtpConfig) : SmtpAct → Elsmtp → Option Elsmtp
  | .routePayload text sev, s => if s.destroyed then none else some (s.routePayload k text sev)
  | .swap thread, s =>
    match s.threads[thread]? with
    | some .sleeping =>
      some { s with
        threads := s.threads.set thread (.sending s.messageContents)
        messageContents := [] }
    | _ => none
  | .send thread, s =>
    match s.threads[thread]? with
    | some (.sending payload) =>
      some { s with threads := s.threads.set thread .sent, sent := s.sent ++ [payload] }
    | _ => none
  | .finish thread, s =>
    match s.threads[thread]? with
    | some .sent =>
      some { s with threads := s.threads.eraseIdx thread, sendingThreadActive := false }
    | _ => none
  | .destroy, s =>
    if s.sendingThreadActive || s.destroyed then none else some { s with destroyed := true }

end Elsmtp

end MfExtensions
