import MfExtensions.Lib.Pieces
import MfExtensions.Upload

/-!
# A payload is uploaded in pieces

The calls of an upload take the payload in pieces, as much each time as there is room for
(`upload_eq`): so what they copy is the beginning of the payload, in order, and a call returns 0
only after all of it (`payload_delivered`).
-/

namespace MfExtensions

namespace UploadStatus

variable {payload : Str} {pos size nmemb : ℕ}

/-- The status at a position of the payload. -/
def atPos (payload : Str) (pos : ℕ) : UploadStatus := { pos, size := payload.length, payload }

/-- A call that copies the piece `p` whole. -/
def whole (p : Str) : Piece := ⟨p.length, p⟩

theorem memcpy_ok {n : ℕ} (h : pos + n ≤ payload.length) :
    memcpy payload pos n = some ((payload.drop pos).take n) := if_pos h

/-- A call copies as much of the rest as there is room for. -/
theorem payloadSource_eq (hpos : pos ≤ payload.length) (hroom : 0 < size * nmemb)
    (hfits : size * nmemb + payload.length < 2 ^ 64) :
    (atPos payload pos).payloadSource size nmemb =
      some (whole ((payload.drop pos).take (size * nmemb)),
        atPos payload (min (pos + size * nmemb) payload.length)) := by
  have hmod : size * nmemb % 2 ^ 64 = size * nmemb := Nat.mod_eq_of_lt (by omega)
  have hsum : (size * nmemb + pos) % 2 ^ 64 = size * nmemb + pos := Nat.mod_eq_of_lt (by omega)
  have hsize : size ≠ 0 := by
    rintro rfl
    omega
  have hnmemb : nmemb ≠ 0 := by
    rintro rfl
    omega
  unfold payloadSource
  simp only [atPos, hmod, hsum]
  by_cases hdone : payload.length ≤ pos
  · -- nothing is left
    have hnil : payload.drop pos = [] := List.drop_eq_nil_of_le hdone
    have hmin : min (pos + size * nmemb) payload.length = pos := by omega
    rw [if_pos (.inr (.inr (.inr hdone))), hnil, List.take_nil, hmin]
    rfl
  · have hrdsize : (if payload.length < size * nmemb + pos then payload.length - pos
        else size * nmemb) = min (size * nmemb) (payload.length - pos) := by
      split_ifs <;> omega
    have hcopied : memcpy payload pos (min (size * nmemb) (payload.length - pos)) =
        some ((payload.drop pos).take (size * nmemb)) := by
      rw [memcpy_ok (by omega), Option.some_inj, List.take_eq_take_iff, List.length_drop]
      omega
    have hlen : ((payload.drop pos).take (size * nmemb)).length =
        min (size * nmemb) (payload.length - pos) := by
      rw [List.length_take, List.length_drop]
    have hnext : (pos + min (size * nmemb) (payload.length - pos)) % 2 ^ 64 =
        min (pos + size * nmemb) payload.length := by
      rw [Nat.mod_eq_of_lt (by omega)]
      omega
    rw [if_neg (by omega), hrdsize, hcopied, ← hnext, ← hlen]
    rfl

/-- The room there is in each call of an upload. -/
def rooms (calls : List (ℕ × ℕ)) : List ℕ := calls.map fun c => c.1 * c.2

/-- There is room in each call, and no sum of a call overflows. -/
def Fits (payload : Str) (calls : List (ℕ × ℕ)) : Prop :=
  ∀ c ∈ calls, 0 < c.1 * c.2 ∧ c.1 * c.2 + payload.length < 2 ^ 64

theorem upload_eq {calls : List (ℕ × ℕ)} (hcalls : Fits payload calls)
    (hpos : pos ≤ payload.length) : ∃ pos', upload calls (atPos payload pos) =
      some ((Pieces.cut (rooms calls) (payload.drop pos)).map whole, atPos payload pos') := by
  induction calls generalizing pos with
  | nil => exact ⟨pos, rfl⟩
  | cons c calls ih =>
    obtain ⟨hroom, hfits⟩ := hcalls c List.mem_cons_self
    have hdrop : payload.drop (min (pos + c.1 * c.2) payload.length) =
        (payload.drop pos).drop (c.1 * c.2) := by
      rw [List.drop_drop]
      rcases le_total (pos + c.1 * c.2) payload.length with h | h
      · rw [min_eq_left h]
      · rw [min_eq_right h, List.drop_length, List.drop_eq_nil_of_le h]
    obtain ⟨pos', h⟩ := ih (fun c hc => hcalls c (List.mem_cons_of_mem _ hc)) (min_le_right _ _)
    refine ⟨pos', ?_⟩
    rw [upload, payloadSource_eq hpos hroom hfits]
    simp only [Option.bind_eq_bind, Option.bind_some]
    rw [h, hdrop]
    rfl

theorem flatMap_whole (ps : List Str) : (ps.map whole).flatMap Piece.copied = ps.flatten := by
  rw [List.flatMap_map]
  exact List.flatMap_id

/-- Every call returns no more than there is room for and copies as many bytes, of the payload; the
pieces are the beginning of the payload, one after the other; and a call returns 0 just if the calls
before it have copied all of the payload. -/
theorem payload_delivered {calls : List (ℕ × ℕ)} (hcalls : Fits payload calls) :
    ∃ pieces u, upload calls (start payload payload.length) = some (pieces, u) ∧
      List.Forall₂ (fun c p => p.returned ≤ c.1 * c.2 ∧ p.copied.length = p.returned) calls pieces ∧
      pieces.flatMap Piece.copied <+: payload ∧
      ∀ i p, pieces[i]? = some p →
        (p.returned = 0 ↔ (pieces.take i).flatMap Piece.copied = payload) := by
  obtain ⟨pos, h⟩ := upload_eq hcalls payload.length.zero_le
  refine ⟨_, _, h, ?_, ?_, ?_⟩
  · have hrooms := Pieces.forall₂_cut (rooms calls) payload
    rw [rooms, List.forall₂_map_left_iff] at hrooms
    rw [List.forall₂_map_right_iff]
    exact hrooms.imp fun c p hp => ⟨hp, rfl⟩
  · rw [flatMap_whole, Pieces.flatten_cut]
    exact List.take_prefix _ payload
  · intro i p hp
    rw [List.getElem?_map] at hp
    obtain ⟨copied, hcopied, rfl⟩ := Option.map_eq_some_iff.1 hp
    have hpos : ∀ room ∈ rooms calls, 0 < room := by
      intro room hroom
      obtain ⟨c, hc, rfl⟩ := List.mem_map.1 hroom
      exact (hcalls c hc).1
    rw [← List.map_take, flatMap_whole]
    exact List.length_eq_zero_iff.trans (Pieces.eq_nil_iff hpos hcopied)

/-- Five bytes, with room for two and for eight. -/
theorem payload_delivered_five :
    Fits "Hello".toList [(1, 2), (2, 4), (1, 1)] ∧
      ∃ pieces u, upload [(1, 2), (2, 4), (1, 1)] (start "Hello".toList 5) = some (pieces, u) ∧
        List.Forall₂ (fun c p => p.returned ≤ c.1 * c.2 ∧ p.copied.length = p.returned)
          [(1, 2), (2, 4), (1, 1)] pieces ∧
        pieces.flatMap Piece.copied <+: "Hello".toList ∧
        ∀ i p, pieces[i]? = some p →
          (p.returned = 0 ↔ (pieces.take i).flatMap Piece.copied = "Hello".toList) :=
  have hcalls : Fits "Hello".toList [(1, 2), (2, 4), (1, 1)] := by
    unfold Fits
    decide
  ⟨hcalls, payload_delivered hcalls⟩

end UploadStatus

end MfExtensions
