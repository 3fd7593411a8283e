import Mathlib.Data.List.TakeWhile
import Mathlib.Algebra.Order.BigOperators.Group.List
import MfExtensions.UdpReceiver

/-!
# Where the timestamp search ends

The digits of a token are tried one after the other (`searchToken_digit`), so a timestamp that
follows any of them is found. Without one the last digit is erased in the end, and the search is
left with what stands after it: nothing, or a rest that no round changes
(`searchToken_no_digit`).
-/

namespace MfExtensions

namespace UdpReceiver

variable {Tm : Type} (lib : UdpLib Tm)

/-- `strptime` accepts what starts at some digit of the token. -/
def hasDate (t : Str) : Bool :=
  t.tails.any fun s => s.head?.any isDigit && (lib.strptime (cStr s)).2

/-- The token is empty, or its last character is a digit. -/
def endsInDigit (t : Str) : Bool := t.getLast?.all isDigit

/-- Every token before the first with a timestamp is empty or ends in a digit. -/
def searchEnds : List Str → Bool
  | [] => true
  | t :: ts => hasDate lib t || (endsInDigit t && searchEnds ts)

theorem hasDate_cons (c : Char) (cs : Str) :
    hasDate lib (c :: cs) =
      ((isDigit c && (lib.strptime (cStr (c :: cs))).2) || hasDate lib cs) := by
  simp [hasDate]

theorem hasDate_of_no_digit {s : Str} (h : s.any isDigit = false) : hasDate lib s = false := by
  induction s with
  | nil => simp [hasDate]
  | cons c cs ih =>
    simp only [List.any_cons, Bool.or_eq_false_iff] at h
    rw [hasDate_cons, h.1, ih h.2, Bool.false_and, Bool.false_or]

theorem endsInDigit_cons {c : Char} {cs : Str} (h : cs ≠ []) :
    endsInDigit (c :: cs) = endsInDigit cs := by
  obtain ⟨d, ds, rfl⟩ := List.exists_cons_of_ne_nil h
  simp [endsInDigit]

theorem searchToken_digit {c : Char} (hc : isDigit c = true) (fuel : ℕ) (tm : Tm) (cs : Str) :
    searchToken lib (fuel + 1) tm (c :: cs) =
      if (lib.strptime (cStr (c :: cs))).2 then some ((lib.strptime (cStr (c :: cs))).1 tm, true)
      else searchToken lib fuel ((lib.strptime (cStr (c :: cs))).1 tm) cs := by
  simp [searchToken, hc]

/-- What stands before the first digit is erased. -/
theorem searchToken_skip {c : Char} {cs : Str} (hc : isDigit c = false)
    (hcs : cs.any isDigit = true) (fuel : ℕ) (tm : Tm) :
    searchToken lib fuel tm (c :: cs) = searchToken lib fuel tm cs := by
  cases fuel with
  | zero => rfl
  | succ fuel =>
    have hne : cs ≠ [] := by
      rintro rfl
      simp at hcs
    have hdrop : cs.dropWhile (!isDigit ·) ≠ [] := by
      rw [ne_eq, List.dropWhile_eq_nil_iff]
      simpa using hcs
    obtain ⟨d, ds, hd⟩ := List.exists_cons_of_ne_nil hdrop
    simp [searchToken, hc, hd, hne]

/-- Without a digit no round changes what is left of a token. -/
theorem searchToken_no_digit {s : Str} (hne : s ≠ []) (h : s.any isDigit = false) :
    ∀ (fuel : ℕ) (tm : Tm), searchToken lib fuel tm s = none
  | 0, _ => rfl
  | fuel + 1, tm => by
    have hdrop : s.dropWhile (!isDigit ·) = [] := by
      rw [List.dropWhile_eq_nil_iff]
      simpa using h
    simp only [searchToken, List.isEmpty_iff, hne, if_false, hdrop]
    exact searchToken_no_digit hne h fuel tm

/-- A round erases at least one character, so as many as there are characters, and one more to see
that nothing is left, are enough. -/
theorem searchToken_ends : ∀ (s : Str) {fuel : ℕ} (tm : Tm), s.length < fuel →
    (hasDate lib s || endsInDigit s) = true → ∃ tm', searchToken lib fuel tm s =
      some (tm', hasDate lib s)
  | [], fuel + 1, tm, _, _ => ⟨tm, rfl⟩
  | c :: cs, fuel + 1, tm, hlen, h => by
    simp only [List.length_cons] at hlen
    cases hc : isDigit c with
    | true =>
      rw [searchToken_digit lib hc, hasDate_cons, hc, Bool.true_and]
      split_ifs with hdate
      · exact ⟨_, by rw [hdate, Bool.true_or]⟩
      · simp only [Bool.not_eq_true] at hdate
        rw [hasDate_cons, hc, hdate] at h
        rw [hdate, Bool.false_or]
        refine searchToken_ends cs _ (by omega) ?_
        rcases eq_or_ne cs [] with rfl | hne
        · simp [endsInDigit]
        · rwa [endsInDigit_cons hne] at h
    | false =>
      cases hcs : cs.any isDigit with
      | true =>
        have hne : cs ≠ [] := by
          rintro rfl
          simp at hcs
        rw [hasDate_cons, hc, Bool.false_and, Bool.false_or] at h ⊢
        rw [searchToken_skip lib hc hcs]
        rw [endsInDigit_cons hne] at h
        exact searchToken_ends cs tm (by omega) h
      | false =>
        have hno : (c :: cs).any isDigit = false := by simp [hc, hcs]
        have hlast : endsInDigit (c :: cs) = false := by
          have hmem := List.getLast_mem (List.cons_ne_nil c cs)
          have := List.any_eq_false.1 hno _ hmem
          simpa [endsInDigit, List.getLast?_eq_some_getLast (List.cons_ne_nil c cs)] using this
        simp [hasDate_of_no_digit lib hno, hlast] at h

/-- Otherwise no number of rounds is enough. -/
theorem searchToken_stuck : ∀ (s : Str) (fuel : ℕ) (tm : Tm),
    (hasDate lib s || endsInDigit s) = false → searchToken lib fuel tm s = none
  | [], _, _, h => by simp [endsInDigit] at h
  | c :: cs, 0, _, _ => rfl
  | c :: cs, fuel + 1, tm, h => by
    cases hcs : cs.any isDigit with
    | true =>
      have hne : cs ≠ [] := by
        rintro rfl
        simp at hcs
      rw [hasDate_cons, endsInDigit_cons hne, Bool.or_assoc, Bool.or_eq_false_iff] at h
      cases hc : isDigit c with
      | true =>
        rw [hc, Bool.true_and] at h
        rw [searchToken_digit lib hc, h.1, if_neg (by simp)]
        exact searchToken_stuck cs fuel _ h.2
      | false =>
        rw [searchToken_skip lib hc hcs]
        exact searchToken_stuck cs (fuel + 1) tm h.2
    | false =>
      cases hc : isDigit c with
      | true =>
        rcases eq_or_ne cs [] with rfl | hne
        · simp [endsInDigit, hc] at h
        · rw [hasDate_cons, hc, Bool.true_and, Bool.or_eq_false_iff, Bool.or_eq_false_iff] at h
          rw [searchToken_digit lib hc, h.1.1, if_neg (by simp)]
          exact searchToken_no_digit lib hne hcs fuel _
      | false =>
        exact searchToken_no_digit lib (List.cons_ne_nil c cs) (by simp [hc, hcs]) _ _

/-- A search that ends tells whether there is a timestamp. -/
theorem searchToken_found : ∀ (s : Str) {fuel : ℕ} {tm tm' : Tm} {found : Bool},
    searchToken lib fuel tm s = some (tm', found) → found = hasDate lib s
  | [], 0, _, _, _, h => by simp [searchToken] at h
  | [], _ + 1, _, _, _, h => by
    simp only [searchToken, List.isEmpty_nil, if_true, Option.some.injEq, Prod.mk.injEq] at h
    exact h.2.symm
  | c :: cs, 0, _, _, _, h => by simp [searchToken] at h
  | c :: cs, fuel + 1, tm, tm', found, h => by
    rw [hasDate_cons]
    cases hc : isDigit c with
    | true =>
      rw [searchToken_digit lib hc] at h
      split_ifs at h with hdate
      · simp only [Option.some.injEq, Prod.mk.injEq] at h
        rw [hdate, Bool.true_and, Bool.true_or, ← h.2]
      · rw [Bool.not_eq_true] at hdate
        rw [hdate, Bool.and_false, Bool.false_or, searchToken_found cs h]
    | false =>
      cases hcs : cs.any isDigit with
      | true =>
        rw [searchToken_skip lib hc hcs] at h
        rw [Bool.false_and, Bool.false_or, searchToken_found cs h]
      | false =>
        rw [searchToken_no_digit lib (List.cons_ne_nil c cs) (by simp [hc, hcs])] at h
        simp at h

theorem searchTokens_ends {fuel : ℕ} : ∀ (ts : List Str) (tm : Tm),
    (∀ t ∈ ts, t.length < fuel) → searchEnds lib ts = true →
      (searchTokens lib fuel tm ts).isSome = true
  | [], _, _, _ => rfl
  | t :: ts, tm, hlen, h => by
    have ht : (hasDate lib t || endsInDigit t) = true := by
      rw [searchEnds] at h
      cases hd : hasDate lib t with
      | true => rfl
      | false => simpa [hd] using (by simpa [hd] using h : _ ∧ _).1
    obtain ⟨tm', hs⟩ := searchToken_ends lib t tm (hlen t List.mem_cons_self) ht
    rw [searchTokens, hs]
    cases hd : hasDate lib t with
    | true => rfl
    | false =>
      rw [searchEnds, hd, Bool.false_or, Bool.and_eq_true] at h
      exact searchTokens_ends ts tm' (fun u hu => hlen u (List.mem_cons_of_mem _ hu)) h.2

theorem searchTokens_stuck {fuel : ℕ} : ∀ (ts : List Str) (tm : Tm),
    searchEnds lib ts = false → searchTokens lib fuel tm ts = none
  | [], _, h => by simp [searchEnds] at h
  | t :: ts, tm, h => by
    rw [searchEnds, Bool.or_eq_false_iff] at h
    cases hd : endsInDigit t with
    | false =>
      rw [searchTokens, searchToken_stuck lib t fuel tm (by rw [h.1, hd]; rfl)]
      rfl
    | true =>
      rw [hd, Bool.true_and] at h
      rw [searchTokens]
      rcases hs : searchToken lib fuel tm t with _ | ⟨tm', found⟩
      · rfl
      · have hfound : found ≠ true := by
          rintro rfl
          rw [← searchToken_found lib t hs] at h
          simp at h
        simpa [hfound] using searchTokens_stuck ts tm' h.2

/-- Reading a packet ends if and only if every token before the first with a timestamp is empty or
ends in a digit. -/
theorem readMsg_ends_iff (input : Str) :
    (∃ fuel, (readMsg lib fuel input).isSome = true) ↔ searchEnds lib (tokenize input) = true := by
  have readMsg_isSome : ∀ fuel, (readMsg lib fuel input).isSome =
      (searchTokens lib fuel lib.tm (tokenize input)).isSome := by
    intro fuel
    unfold readMsg
    cases tokenize input with
    | nil => rfl
    | cons t ts =>
      simp only
      rcases searchTokens lib fuel lib.tm (t :: ts) with _ | ⟨tm, it⟩ <;> rfl
  simp only [readMsg_isSome]
  constructor
  · rintro ⟨fuel, h⟩
    by_contra hstuck
    rw [searchTokens_stuck lib _ _ (by simpa using hstuck)] at h
    simp at h
  · intro h
    refine ⟨((tokenize input).map List.length).sum + 1,
      searchTokens_ends lib _ _ (fun t ht => ?_) h⟩
    exact Nat.lt_succ_of_le (List.le_sum_of_mem (List.mem_map_of_mem ht))

/-- The packet `MF|` passes the checks, and reading it never ends. -/
theorem readMsg_letters_stuck :
    validatePacket "MF|".toList = true ∧
      ∀ (Tm : Type) (lib : UdpLib Tm) (fuel : ℕ), readMsg lib fuel "MF|".toList = none := by
  refine ⟨by decide, fun Tm lib fuel => ?_⟩
  have htok : tokenize "MF|".toList = ["MF".toList] := by decide
  have hends : searchEnds lib ["MF".toList] = false := by
    rw [searchEnds, hasDate_of_no_digit lib (by decide)]
    rfl
  simp only [readMsg, htok, searchTokens_stuck lib _ lib.tm hends]
  rfl

end UdpReceiver

end MfExtensions
