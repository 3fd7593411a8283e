import MfExtensions.Proofs.UdpRoundTrip

/-!
# Numbers that stop the receiver

`read_msg` goes on where a token has no number at its start, and throws where the number does not
fit. It reads two of them, and which token is the second depends on the first: where that has no
number it is read again as the host name (`readMsg_ok_iff`).
-/

namespace MfExtensions

namespace UdpReceiver

variable {Tm : Type} (lib : UdpLib Tm) {w fuel : ℕ} {it it' : List Str} {n : ℤ}

/-- If the token starts with a number, it is one of `w` bits. -/
def FitsIn (w : ℕ) (token : Option Str) : Prop :=
  ∀ t ∈ token, ∀ n ∈ strtol t, -2 ^ (w - 1) ≤ n ∧ n < 2 ^ (w - 1)

/-- The tokens after the one with the timestamp. -/
def afterTimestamp (tokens : List Str) : List Str :=
  (tokens.dropWhile fun t => !hasDate lib t).tail

/-- The token that is read as the process number. -/
def pidToken (it : List Str) : Option Str :=
  if (it[1]?.bind strtol).isSome then it[7]? else it[6]?

/-- The numbers of a packet fit. -/
def NumbersFit (input : Str) : Prop :=
  FitsIn 32 (afterTimestamp lib (tokenize input))[1]? ∧
    FitsIn 64 (pidToken (afterTimestamp lib (tokenize input)))

/-! ## One number -/

theorem readNumber_short (conv : Str → Except StoErr ℤ) (h : it[1]? = none) :
    readNumber conv it = .ok (0, []) := by
  rcases it with _ | ⟨s, _ | ⟨t, ts⟩⟩
  · rfl
  · rfl
  · simp at h

theorem fitsIn_none : FitsIn w none := by simp [FitsIn]

theorem fitsIn_some {t : Str} :
    FitsIn w (some t) ↔ ∀ n ∈ strtol t, -2 ^ (w - 1) ≤ n ∧ n < 2 ^ (w - 1) := by
  simp [FitsIn]

theorem readNumber_long (w : ℕ) (s t : Str) (ts : List Str) :
    readNumber (sto w) (s :: t :: ts) = match strtol t with
      | none => .ok (0, s :: t :: ts)
      | some n =>
        if -2 ^ (w - 1) ≤ n ∧ n < 2 ^ (w - 1) then .ok (n, t :: ts) else .error .outOfRange := by
  rw [readNumber_cons, sto]
  rcases strtol t with _ | n
  · rfl
  · simp only
    split_ifs <;> rfl

theorem exists_long {t : Str} (h : it[1]? = some t) : ∃ s ts, it = s :: t :: ts := by
  rcases it with _ | ⟨s, _ | ⟨u, ts⟩⟩
  · simp at h
  · simp at h
  · obtain rfl : u = t := by simpa using h
    exact ⟨s, ts, rfl⟩

theorem readNumber_ok_iff (w : ℕ) (it : List Str) :
    (∃ p, readNumber (sto w) it = .ok p) ↔ FitsIn w it[1]? := by
  cases ht : it[1]? with
  | none => simp [readNumber_short _ ht, fitsIn_none]
  | some t =>
    obtain ⟨s, ts, rfl⟩ := exists_long ht
    rw [readNumber_long, fitsIn_some]
    rcases strtol t with _ | n
    · simp
    · by_cases hfits : -2 ^ (w - 1) ≤ n ∧ n < 2 ^ (w - 1) <;> simp [hfits]

/-- The iterator stays where it is if the token has no number. -/
theorem readNumber_it (h : readNumber (sto w) it = .ok (n, it')) : it'[6]? = pidToken it := by
  cases ht : it[1]? with
  | none =>
    rw [readNumber_short _ ht] at h
    obtain ⟨-, rfl⟩ := Prod.mk.inj (Except.ok.inj h)
    have hlength := List.getElem?_eq_none_iff.1 ht
    have hshort : it[6]? = none := List.getElem?_eq_none_iff.2 (by omega)
    simp [pidToken, ht, hshort]
  | some t =>
    obtain ⟨s, ts, rfl⟩ := exists_long ht
    rw [readNumber_long] at h
    rw [pidToken, ht, Option.bind_some]
    rcases hn : strtol t with _ | m
    · rw [hn] at h
      obtain ⟨-, rfl⟩ := Prod.mk.inj (Except.ok.inj h)
      rfl
    · simp only [hn] at h
      split_ifs at h
      obtain ⟨-, rfl⟩ := Prod.mk.inj (Except.ok.inj h)
      rfl

/-! ## A packet -/

theorem readFields_ok_iff (tvSec : ℤ) (it : List Str) :
    (∃ f, readFields lib tvSec it = .ok f) ↔ FitsIn 32 it[1]? ∧ FitsIn 64 (pidToken it) := by
  have hpid : ∀ {n : ℤ} {it₁ : List Str}, readNumber stoi it = .ok (n, it₁) →
      ((∃ p, readNumber stol (it₁.drop 5) = .ok p) ↔ FitsIn 64 (pidToken it)) := by
    intro n it₁ h
    rw [stol, readNumber_ok_iff, List.getElem?_drop, ← readNumber_it h]
  simp only [readFields_ok]
  constructor
  · rintro ⟨-, n, it₁, pid, it₂, h₁, h₂, -⟩
    exact ⟨(readNumber_ok_iff 32 it).1 ⟨_, h₁⟩, (hpid h₁).1 ⟨_, h₂⟩⟩
  · rintro ⟨h₁, h₂⟩
    obtain ⟨⟨n, it₁⟩, h₁⟩ := (readNumber_ok_iff 32 it).2 h₁
    obtain ⟨⟨pid, it₂⟩, h₂⟩ := (hpid h₁).2 h₂
    exact ⟨_, n, it₁, pid, it₂, h₁, h₂, rfl⟩

variable {lib}

theorem afterTimestamp_cons (t : Str) (ts : List Str) : afterTimestamp lib (t :: ts) =
    if hasDate lib t then ts else afterTimestamp lib ts := by
  unfold afterTimestamp
  cases h : hasDate lib t <;> simp [h]

theorem searchTokens_it : ∀ {tokens : List Str} {tm tm' : Tm} {it : List Str},
    searchTokens lib fuel tm tokens = some (tm', it) → it = afterTimestamp lib tokens
  | [], _, _, _, h => by
    obtain ⟨-, rfl⟩ := Prod.mk.inj (Option.some.inj h)
    rfl
  | t :: ts, tm, tm', it, h => by
    rw [searchTokens] at h
    obtain ⟨⟨tm₁, found⟩, ht, h⟩ := Option.bind_eq_some_iff.1 h
    rw [afterTimestamp_cons, ← searchToken_found lib t ht]
    cases found with
    | true => exact (Prod.mk.inj (Option.some.inj h)).2.symm
    | false => exact searchTokens_it h

/-- Where the search for the timestamp ends, a message is returned just if the numbers fit. -/
theorem readMsg_ok_iff {input : Str} {r : Except StoErr QtMfMsg}
    (h : readMsg lib fuel input = some r) : (∃ m, r = .ok m) ↔ NumbersFit lib input := by
  unfold NumbersFit
  rw [readMsg] at h
  cases htok : tokenize input with
  | nil =>
    simp only [htok, Option.some.injEq] at h
    simp [← h, afterTimestamp, pidToken, fitsIn_none]
  | cons t ts =>
    simp only [htok] at h
    obtain ⟨⟨tm, it⟩, hs, h⟩ := Option.bind_eq_some_iff.1 h
    rw [← searchTokens_it hs, ← readFields_ok_iff lib (lib.mktime tm) it]
    obtain rfl := Option.some_inj.1 h
    cases readFields lib (lib.mktime tm) it <;> simp [Except.map]

/-! ## A sequence number -/

/-- A packet with this text for the sequence number, and one for the process number. -/
def packetOf (seqNum pid : Str) : Str :=
  "|".toList.intercalate ["UDPMFMESSAGE1".toList, second, [], seqNum, "host".toList,
    "addr".toList, "INFO".toList, "cat".toList, "app".toList, pid]

/-- Texts without a number do no harm. -/
theorem readMsg_ok_first : ∃ r, readMsg secondLib 100 (packetOf "none".toList []) = some r ∧
    ∃ m, r = .ok m := by
  obtain ⟨r, hr⟩ : ∃ r, readMsg secondLib 100 (packetOf "none".toList []) = some r := ⟨_, rfl⟩
  refine ⟨r, hr, (readMsg_ok_iff hr).2 ?_⟩
  have hafter : afterTimestamp secondLib (tokenize (packetOf "none".toList [])) = [[],
      "none".toList, "host".toList, "addr".toList, "INFO".toList, "cat".toList, "app".toList] := rfl
  have hnone : ∀ t ∈ ["none".toList, "app".toList], strtol t = none := by decide
  rw [NumbersFit, hafter]
  constructor
  · refine fitsIn_some.2 fun n hn => ?_
    rw [hnone _ (by decide)] at hn
    simp at hn
  · refine fitsIn_some.2 fun n hn => ?_
    rw [hnone _ (by decide)] at hn
    simp at hn

/-- A sequence number of eleven digits is too large for an `int`. -/
theorem readMsg_throws : validatePacket (packetOf "99999999999".toList "1".toList) = true ∧
    readMsg secondLib 100 (packetOf "99999999999".toList "1".toList) =
      some (.error .outOfRange) :=
  ⟨by decide, rfl⟩

end UdpReceiver

end MfExtensions
