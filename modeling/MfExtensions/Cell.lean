import MfExtensions.Types

/-!
# A cell of the hitmap

`ma_cell`: the messages it holds, whether it is on, and the time of its next event. A hit hands
the timing event it schedules back to its caller, which owns the queue.
-/

namespace MfExtensions

structure Cell where
  msgs : List Msg := []
  on : Bool := false
  /-- groups from the last hit -/
  what : Smatch := {}
  tEvent : ℤ := 0

namespace Cell

def reset (x : Cell) : Cell := { x with on := false, tEvent := 0, msgs := [] }

/-- Pop the messages more than `ts` seconds older than `latest`; `front()` is read before each
test. -/
def popExpired (latest ts : ℤ) : List Msg → Option (List Msg)
  | [] => none
  | m :: ms => if latest - m.time > ts then popExpired latest ts ms else some (m :: ms)

/-- Pop the messages beyond `count`. -/
def popExcess (count : ℕ) (ms : List Msg) : List Msg := ms.drop (ms.length - count)

/-- The time of the event scheduled for the messages held: when the first of them expires. -/
def nextEvent (ts : ℤ) : List Msg → Option ℤ
  | [] => none
  | m :: _ => some (m.time + ts + 1)

/-- The new cell, the time of the event it schedules, and whether the status changed; `none`
where the code reads the front of an empty list. -/
def hit (k : CondConfig) (msg : Msg) (w : Smatch) (x : Cell) :
    Option (Cell × Option ℤ × Bool) :=
  let msgs := x.msgs ++ [msg]
  if x.on && k.persistent then
    some ({ x with what := w, msgs := msgs.tail }, none, false)
  else
    match popExpired msg.time k.ts msgs with
    | none => none
    | some fresh =>
      let msgs := popExcess (sizeT k.tc) fresh
      if msgs.length = sizeT k.tc then
        match nextEvent k.ts msgs with
        | none => none
        | some t =>
          some ({ msgs, on := k.atLeast, what := w, tEvent := t }, some t, k.atLeast != x.on)
      else if !k.atLeast then
        match nextEvent k.ts msgs with
        | none => none
        | some t => some ({ msgs, on := false, what := w, tEvent := t }, some t, x.on)
      else
        some ({ x with msgs, on := false, what := w }, none, x.on)

/-- The new cell, and whether the status flipped. -/
def event (k : CondConfig) (t : ℤ) (x : Cell) : Cell × Bool :=
  if t ≠ x.tEvent then (x, false)
  else
    let newStatus := if !k.atLeast then true else k.persistent
    if newStatus = x.on then (x, false) else ({ x with on := newStatus }, true)

/-- `get_latest_message`. -/
def latestMessage (x : Cell) : Except Err String :=
  match x.msgs.getLast? with
  | none => .error .assertion
  | some m => .ok m.text

/-- `get_message_group`, out of the strings of the condition. -/
def messageGroup (texts : Texts) (x : Cell) (i : ℕ) : Except Err String :=
  if i > x.what.subs.length then .error (.runtime "group does not exist") else x.what.sub texts i

end Cell

end MfExtensions
