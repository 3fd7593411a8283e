import MfExtensions.QtMfMsg

/-!
# What the analyzer reads of a message

`get_source_from_msg` and `extract_fields`. The source is the text the viewer shows for the
application, with the number of its process.
-/

namespace MfExtensions

/-- `get_source_from_msg`. -/
def getSourceFromMsg (msg : QtMfMsg) : String := String.ofList msg.app

/-- `extract_fields`, with the time of the message. -/
def extractFields (msg : QtMfMsg) : Msg where
  sev := msg.sev
  app := getSourceFromMsg msg
  cat := String.ofList msg.cat
  text := String.ofList msg.text
  time := msg.time

end MfExtensions
