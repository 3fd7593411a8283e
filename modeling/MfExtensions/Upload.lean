import MfExtensions.QtMfMsg

/-!
# The upload of a mail

`payload_source`, which the mail library calls to take the payload: each call says how much room
there is, and the position in the payload is kept from one call to the next.
-/

namespace MfExtensions

/-- `upload_status`. `payload` is what stands at the pointer, to the end of the payload. -/
structure UploadStatus where
  pos : ℕ := 0
  size : ℕ
  payload : Str

/-- What a call returns, and the bytes it copies. -/
structure Piece where
  returned : ℕ
  copied : Str

namespace UploadStatus

/-- As `send_message` and `send_message_ssl` set it up. -/
def start (payload : Str) (payloadSize : ℕ) : UploadStatus := { size := payloadSize, payload }

/-- `memcpy` of `n` bytes from the position `pos` on, `none` where it reads outside the payload. -/
def memcpy (payload : Str) (pos n : ℕ) : Option Str :=
  if pos + n ≤ payload.length then some ((payload.drop pos).take n) else none

def payloadSource (size nmemb : ℕ) (u : UploadStatus) : Option (Piece × UploadStatus) :=
  let rdsize := size * nmemb % 2 ^ 64
  if size = 0 ∨ nmemb = 0 ∨ rdsize < 1 ∨ u.size ≤ u.pos then some (⟨0, []⟩, u)
  else do
    let rdsize := if u.size < (rdsize + u.pos) % 2 ^ 64 then u.size - u.pos else rdsize
    let copied ← memcpy u.payload u.pos rdsize
    return (⟨rdsize, copied⟩, { u with pos := (u.pos + rdsize) % 2 ^ 64 })

/-- The calls of an upload, each with its `size` and `nmemb`. -/
def upload : List (ℕ × ℕ) → UploadStatus → Option (List Piece × UploadStatus)
  | [], u => some ([], u)
  | (size, nmemb) :: calls, u => do
    let (piece, u) ← u.payloadSource size nmemb
    let (pieces, u) ← upload calls u
    return (piece :: pieces, u)

end UploadStatus

end MfExtensions
