import Mathlib.Tactic.Positivity
import MfExtensions.UdpSender
import MfExtensions.Lib.Exec
import MfExtensions.Proofs.UdpReceiver

/-!
# From packet to fields

Splitting a packet at the separators gives back the fields written before them (`tokenize_append`)
and the body but for a separator at its end (`intercalate_tokenize`). The timestamp search ends at
the first token of the timestamp (`readPacket_eq`), so where the reader starts depends on how many
separators the timestamp has: it expects the sequence number two tokens further on
(`readNumber_one`, `readNumber_zero`).
-/

namespace MfExtensions

namespace UdpReceiver

/-! ## Tokens -/

theorem tokenize_append : ∀ {a : Str}, '|' ∉ a → ∀ b : Str,
    tokenize (a ++ '|' :: b) = a :: tokenize b
  | [], _, b => rfl
  | c :: cs, h, b => by
    rw [List.mem_cons, not_or] at h
    rw [List.cons_append, tokenize, if_neg (Ne.symm h.1), tokenize_append h.2]

theorem tokenize_eq_nil {s : Str} (h : tokenize s = []) : s = [] := by
  cases s with
  | nil => rfl
  | cons c cs =>
    rw [tokenize] at h
    split_ifs at h
    cases ht : tokenize cs <;> simp [ht] at h

/-- Joining the tokens again loses a separator at the end. -/
theorem intercalate_tokenize : ∀ s : Str, "|".toList.intercalate (tokenize s) =
    if s.getLast? = some '|' then s.dropLast else s
  | [] => rfl
  | c :: cs => by
    have ih := intercalate_tokenize cs
    have hbar : "|".toList = ['|'] := rfl
    rcases eq_or_ne cs [] with rfl | hcs
    · by_cases hc : c = '|'
      · simp [tokenize, hc]
      · simp [tokenize, hc]
    · obtain ⟨t, ts, ht⟩ := List.exists_cons_of_ne_nil fun h => hcs (tokenize_eq_nil h)
      have hsame : (if (c :: cs).getLast? = some '|' then (c :: cs).dropLast else c :: cs) =
          c :: if cs.getLast? = some '|' then cs.dropLast else cs := by
        obtain ⟨d, ds, rfl⟩ := List.exists_cons_of_ne_nil hcs
        rw [List.getLast?_cons_cons, List.dropLast_cons_of_ne_nil (List.cons_ne_nil d ds)]
        split_ifs <;> rfl
      rw [hsame, ← ih, tokenize, ht]
      split_ifs with hc
      · rw [List.intercalate_cons_cons, hbar, hc]
        rfl
      · cases ts with
        | nil => simp
        | cons u us => simp [List.intercalate_cons_cons]

theorem tokenize_bar : ∀ a b : Str, tokenize (a ++ '|' :: b) = tokenize (a ++ ['|']) ++ tokenize b
  | [], b => rfl
  | c :: cs, b => by
    have ih := tokenize_bar cs b
    have hne : tokenize (cs ++ ['|']) ≠ [] := fun h => by simpa using tokenize_eq_nil h
    obtain ⟨t, ts, ht⟩ := List.exists_cons_of_ne_nil hne
    rw [ht] at ih
    simp only [List.cons_append, tokenize, ih, ht]
    split_ifs <;> rfl

theorem length_tokenize_bar : ∀ a : Str, (tokenize (a ++ ['|'])).length = a.count '|' + 1
  | [] => rfl
  | c :: cs => by
    have ih := length_tokenize_bar cs
    have hne : tokenize (cs ++ ['|']) ≠ [] := fun h => by simpa using tokenize_eq_nil h
    obtain ⟨t, ts, ht⟩ := List.exists_cons_of_ne_nil hne
    rw [ht] at ih
    rw [List.cons_append, tokenize, ht]
    split_ifs with hc
    · rw [hc, List.count_cons_self, List.length_cons, ih]
    · rw [List.count_cons_of_ne hc, List.length_cons, ← ih, List.length_cons]

/-- What stands before the first separator is the first token. -/
theorem tokenize_prefix : ∀ {a : Str}, '|' ∉ a → ∀ {b : Str} {t : Str} {ts : List Str},
    tokenize b = t :: ts → tokenize (a ++ b) = (a ++ t) :: ts
  | [], _, _, _, _, h => h
  | c :: cs, hbar, b, t, ts, h => by
    rw [List.mem_cons, not_or] at hbar
    rw [List.cons_append, tokenize, if_neg (Ne.symm hbar.1), tokenize_prefix hbar.2 h]
    rfl

/-! ## Numbers -/

theorem number_eq {n : ℤ} (hn : 0 ≤ n) : number n = Nat.toDigits 10 n.toNat := by
  obtain ⟨m, rfl⟩ := Int.eq_ofNat_of_zero_le hn
  simp [number, toString, Int.repr]

theorem number_neg {n : ℤ} (hn : n < 0) : number n = '-' :: number (-n) := by
  have hpos : ¬0 ≤ n := by omega
  have hneg : 0 ≤ -n := by omega
  rw [number_eq hneg, number, Int.toString_eq_repr, Int.repr_eq_if, if_neg hpos,
    String.toList_append, Nat.toList_repr]
  rfl

theorem isDigit_eq (c : Char) : isDigit c = c.isDigit := by
  simp only [isDigit, Char.isDigit, Char.le_def, ge_iff_le]

theorem isDigit_of_mem_number {n : ℤ} (hn : 0 ≤ n) {c : Char} (hc : c ∈ number n) :
    isDigit c = true := by
  rw [number_eq hn] at hc
  exact (isDigit_eq c).trans (Nat.isDigit_of_mem_toDigits (by decide) (by decide) hc)

theorem number_ne_nil (n : ℤ) : number n ≠ [] := by
  rcases lt_or_ge n 0 with hn | hn
  · rw [number_neg hn]
    exact List.cons_ne_nil _ _
  · rw [number_eq hn]
    exact Nat.toDigits_ne_nil

theorem bar_notMem_number (n : ℤ) : '|' ∉ number n := by
  intro h
  rcases lt_or_ge n 0 with hn | hn
  · rw [number_neg hn, List.mem_cons] at h
    rcases h with h | h
    · exact absurd h (by decide)
    · exact absurd (isDigit_of_mem_number (by omega) h) (by decide)
  · exact absurd (isDigit_of_mem_number hn h) (by decide)

theorem decimal_number {n : ℤ} (hn : 0 ≤ n) : decimal (number n) = n := by
  have hcast : ∀ (ds : Str) (m : ℕ),
      ds.foldl (fun (n : ℤ) c => 10 * n + (c.toNat - '0'.toNat : ℕ)) m =
        Nat.ofDigitChars 10 ds m := by
    intro ds
    induction ds with
    | nil => exact fun m => rfl
    | cons c cs ih =>
      intro m
      rw [List.foldl_cons, Nat.ofDigitChars_cons, ← ih]
      push_cast
      rfl
  rw [decimal, number_eq hn, ← Nat.cast_zero, hcast, Nat.ofDigitChars_ten_toDigits]
  omega

/-- A number is read as it was written. -/
theorem sto_number {w : ℕ} {n : ℤ} (hn : 0 ≤ n) (hlt : n < 2 ^ (w - 1)) :
    sto w (number n) = .ok n := by
  have hdigits : ∀ c ∈ number n, isDigit c = true := fun c hc => isDigit_of_mem_number hn hc
  obtain ⟨c, cs, hcs⟩ := List.exists_cons_of_ne_nil (number_ne_nil n)
  have hc : isDigit c = true := hdigits c (hcs ▸ List.mem_cons_self)
  have hspace : isSpace c = false := by
    have hlow : 48 ≤ c.toNat := by
      simp only [isDigit, Bool.and_eq_true, decide_eq_true_eq] at hc
      exact hc.1
    have hne : c ≠ ' ' := by
      rintro rfl
      exact absurd hlow (by decide)
    simp only [isSpace, hne, decide_false, Bool.false_or, Bool.and_eq_false_iff,
      decide_eq_false_iff_not]
    omega
  have htol : strtol (number n) = some n := by
    have htake : (c :: cs).takeWhile isDigit = c :: cs := by
      rw [List.takeWhile_eq_self_iff]
      exact hcs ▸ hdigits
    have hne : c ≠ '-' ∧ c ≠ '+' := by
      constructor <;> rintro rfl <;> exact absurd hc (by decide)
    rw [strtol, hcs, List.dropWhile_cons_of_neg (by simp [hspace])]
    simp [hne.1, hne.2, htake]
    rw [← hcs, decimal_number hn]
  have hlow : -2 ^ (w - 1) ≤ n := by
    have : (0 : ℤ) ≤ 2 ^ (w - 1) := by positivity
    omega
  rw [sto, htol]
  exact if_pos ⟨hlow, hlt⟩

/-! ## The fields -/

variable {Tm : Type} (lib : UdpLib Tm) (mf : MfLib)

/-- The fields `read_msg` reads from a packet before it makes the message. -/
def readPacket (fuel : ℕ) (input : Str) : Option (Except StoErr Fields) :=
  match tokenize input with
  | [] => some (.ok { sev := lib.elDefault })
  | tokens => (searchTokens lib fuel lib.tm tokens).map fun (tm, it) =>
    readFields lib (lib.mktime tm) it

theorem readMsg_eq (fuel : ℕ) (input : Str) :
    readMsg lib fuel input = (readPacket lib fuel input).map (Except.map (toMsg lib)) := by
  unfold readMsg readPacket
  cases tokenize input with
  | nil => rfl
  | cons t ts =>
    simp only
    rcases searchTokens lib fuel lib.tm (t :: ts) with _ | ⟨tm, it⟩
    · rfl
    · rfl

theorem advance_eq (it : List Str) : advance it = (it.tail, it.tail.head?) := by
  cases it <;> rfl

theorem readMessage_eq (it : List Str) : readMessage it = "|".toList.intercalate it.tail := by
  cases it <;> rfl

/-- The fields, where `it` is the iterator at the first number and `it'` at the second. -/
def fieldsAt (tvSec seqNum : ℤ) (it : List Str) (pid : ℤ) (it' : List Str) : Fields where
  hostname := it[1]?.getD []
  hostaddr := it[2]?.getD []
  sev := (it[3]?.map lib.elSeverity).getD lib.elDefault
  category := it[4]?.getD []
  application := it[5]?.getD []
  pid := pid.bmod (2 ^ 32)
  eventID := it'[1]?.getD []
  module := it'[2]?.getD []
  file := it'[3]?.getD []
  line := it'[4]?.getD []
  message := "|".toList.intercalate (it'.drop 5)
  tvSec
  seqNum

theorem readFields_eq (tvSec : ℤ) (it : List Str) :
    readFields lib tvSec it = (do
      let (seqNum, it) ← readNumber stoi it
      let (pid, it') ← readNumber stol (it.drop 5)
      return fieldsAt lib tvSec seqNum it pid it') := by
  unfold readFields
  simp only [readField, advance_eq, readMessage_eq, ← List.drop_one, List.drop_drop,
    List.head?_drop]
  refine congrArg (Except.bind _) (funext fun ⟨seqNum, it⟩ => ?_)
  refine congrArg (Except.bind _) (funext fun ⟨pid, it'⟩ => ?_)
  unfold fieldsAt
  cases hsev : it[3]? with
  | none => simp
  | some t => simp

theorem readFields_ok {tvSec : ℤ} {it : List Str} {f : Fields} :
    readFields lib tvSec it = .ok f ↔ ∃ seqNum it₁ pid it₂,
      readNumber stoi it = .ok (seqNum, it₁) ∧ readNumber stol (it₁.drop 5) = .ok (pid, it₂) ∧
        f = fieldsAt lib tvSec seqNum it₁ pid it₂ := by
  rw [readFields_eq]
  simp only [Exec.except_bind_ok, Prod.exists, pure, Except.pure, Except.ok.injEq]
  constructor
  · rintro ⟨seqNum, it₁, h₁, pid, it₂, h₂, rfl⟩
    exact ⟨seqNum, it₁, pid, it₂, h₁, h₂, rfl⟩
  · rintro ⟨seqNum, it₁, pid, it₂, h₁, h₂, rfl⟩
    exact ⟨seqNum, it₁, h₁, pid, it₂, h₂, rfl⟩

/-! ## The timestamp -/

/-- `strptime` takes no string of digits for a date. -/
def RejectsNumbers : Prop := ∀ s : Str, (∀ c ∈ s, isDigit c = true) → (lib.strptime s).2 = false

/-- The string starts with a date `strptime` reads. -/
def Dated (t : Str) : Prop :=
  ∃ date, date <+: t ∧ date.head?.any isDigit = true ∧ '|' ∉ date ∧ Char.ofNat 0 ∉ date ∧
    ∀ rest, (lib.strptime (date ++ rest)).2 = true

theorem hasDate_append {a : Str} (h : ∀ c ∈ a, isDigit c = false) (b : Str) :
    hasDate lib (a ++ b) = hasDate lib b := by
  induction a with
  | nil => rfl
  | cons c cs ih =>
    rw [List.cons_append, hasDate_cons, h c List.mem_cons_self, Bool.false_and, Bool.false_or]
    exact ih fun d hd => h d (List.mem_cons_of_mem c hd)

theorem hasDate_digits (hlib : RejectsNumbers lib) {s : Str} (h : ∀ c ∈ s, isDigit c = true) :
    hasDate lib s = false := by
  induction s with
  | nil => rfl
  | cons c cs ih =>
    have hc : (lib.strptime (cStr (c :: cs))).2 = false :=
      hlib _ fun d hd => h d (List.takeWhile_subset _ hd)
    rw [hasDate_cons, hc, Bool.and_false, Bool.false_or]
    exact ih fun d hd => h d (List.mem_cons_of_mem c hd)

/-- The token of the process number is no date, and the search goes past it. -/
theorem hasDate_pid (hlib : RejectsNumbers lib) {pid : ℤ} (hpid : 0 ≤ pid) :
    hasDate lib ("UDPMFMESSAGE".toList ++ number pid) = false := by
  rw [hasDate_append lib (by simp [isDigit])]
  exact hasDate_digits lib hlib fun c hc => isDigit_of_mem_number hpid hc

theorem endsInDigit_pid {pid : ℤ} (hpid : 0 ≤ pid) :
    endsInDigit ("UDPMFMESSAGE".toList ++ number pid) = true := by
  rw [endsInDigit, List.getLast?_append_of_ne_nil _ (number_ne_nil pid),
    List.getLast?_eq_some_getLast (number_ne_nil pid)]
  exact isDigit_of_mem_number hpid (List.getLast_mem _)

theorem cStr_append_of_notMem {s : Str} (h : Char.ofNat 0 ∉ s) (t : Str) :
    cStr (s ++ t) = s ++ cStr t := by
  refine List.takeWhile_append_of_pos fun c hc => ?_
  simp only [ne_eq, decide_not, Bool.not_eq_true', decide_eq_false_iff_not]
  rintro rfl
  exact h hc

theorem cStr_eq_self {s : Str} (h : Char.ofNat 0 ∉ s) : cStr s = s := by
  simpa [cStr] using cStr_append_of_notMem h []

theorem hasDate_of_front {date t : Str} (hdate : date <+: t)
    (hdigit : date.head?.any isDigit = true) (hnul : Char.ofNat 0 ∉ date)
    (h : ∀ rest, (lib.strptime (date ++ rest)).2 = true) : hasDate lib t = true := by
  obtain ⟨rest, rfl⟩ := hdate
  cases date with
  | nil => simp at hdigit
  | cons c cs =>
    have hc : isDigit c = true := by simpa using hdigit
    rw [List.cons_append, hasDate_cons, hc, ← List.cons_append, cStr_append_of_notMem hnul, h,
      Bool.true_and, Bool.true_or]

/-- A search ends at the first token with a timestamp. -/
theorem searchTokens_second {a t : Str} (ts : List Str) (ha : hasDate lib a = false)
    (hends : endsInDigit a = true) (ht : hasDate lib t = true) :
    (∃ fuel tm, searchTokens lib fuel lib.tm (a :: t :: ts) = some (tm, ts)) ∧
    ∀ {fuel tm it}, searchTokens lib fuel lib.tm (a :: t :: ts) = some (tm, it) → it = ts := by
  constructor
  · obtain ⟨tm, h₁⟩ := searchToken_ends lib a lib.tm
      (show a.length < a.length + t.length + 1 by omega) (by rw [ha, hends]; rfl)
    obtain ⟨tm', h₂⟩ := searchToken_ends lib t tm
      (show t.length < a.length + t.length + 1 by omega) (by rw [ht]; rfl)
    refine ⟨a.length + t.length + 1, tm', ?_⟩
    rw [searchTokens, h₁, ha]
    show searchTokens lib _ tm (t :: ts) = _
    rw [searchTokens, h₂, ht]
    rfl
  · intro fuel tm it h
    rw [searchTokens] at h
    obtain ⟨⟨tm₁, found₁⟩, h₁, h⟩ := Option.bind_eq_some_iff.1 h
    rw [← searchToken_found lib a h₁] at ha
    subst ha
    replace h : searchTokens lib fuel tm₁ (t :: ts) = some (tm, it) := h
    rw [searchTokens] at h
    obtain ⟨⟨tm₂, found₂⟩, h₂, h⟩ := Option.bind_eq_some_iff.1 h
    rw [← searchToken_found lib t h₂] at ht
    subst ht
    simp only [if_true] at h
    exact (Prod.mk.inj (Option.some.inj h)).2.symm

/-! ## The header -/

/-- What `fillPrefix` writes after the timestamp. -/
def header (e : ErrorObj) (s : UdpSender) (file : Str) : List Str :=
  [number (s.seqNum + 1), s.hostname, s.hostaddr, mf.getName e.severity, UdpSender.bang e.id,
    UdpSender.bang s.app, number s.pid, mf.iteration, UdpSender.bang e.module, file,
    number e.lineNumber]

/-- The fields that are sent as they are have no separators. -/
structure Clean (e : ErrorObj) (s : UdpSender) (file : Str) : Prop where
  trimmed : UdpSender.trimFilename s.filenameDelimit e.filename = some file
  hostname : '|' ∉ s.hostname
  hostaddr : '|' ∉ s.hostaddr
  severity : '|' ∉ mf.getName e.severity
  iteration : '|' ∉ mf.iteration
  file : '|' ∉ file
  pid : 1 ≤ s.pid ∧ s.pid < 2 ^ 31

theorem bar_notMem_bang (s : Str) : '|' ∉ UdpSender.bang s := by
  rw [UdpSender.bang, List.mem_map]
  rintro ⟨c, -, hc⟩
  split_ifs at hc with h
  · exact absurd hc (by decide)
  · exact h hc

variable {mf} {e : ErrorObj} {s s' : UdpSender} {file p : Str}

theorem tokenize_packet (hc : Clean mf e s file) (hp : s.packet mf e = some (p, s')) :
    tokenize p = ("UDPMFMESSAGE".toList ++ number s.pid) ::
      (tokenize (mf.timestamp e.timestamp ++ ['|']) ++ header mf e s file ++
        tokenize (UdpSender.fillUsrMsg e)) := by
  have hpid : '|' ∉ "UDPMFMESSAGE".toList ++ number s.pid := by
    rw [List.mem_append, not_or]
    exact ⟨by decide +kernel, bar_notMem_number s.pid⟩
  rw [UdpSender.packet, UdpSender.fillPrefix, hc.trimmed] at hp
  obtain ⟨rfl, -⟩ := Prod.mk.inj (Option.some.inj hp)
  simp only [List.append_assoc, List.cons_append]
  rw [← List.append_assoc, tokenize_append hpid, tokenize_bar]
  rw [tokenize_append (bar_notMem_number _), tokenize_append hc.hostname,
    tokenize_append hc.hostaddr, tokenize_append hc.severity,
    tokenize_append (bar_notMem_bang _), tokenize_append (bar_notMem_bang _),
    tokenize_append (bar_notMem_number _), tokenize_append hc.iteration,
    tokenize_append (bar_notMem_bang _), tokenize_append hc.file,
    tokenize_append (bar_notMem_number _)]
  rfl

/-- What stands after the first token of the timestamp. -/
def afterDate (mf : MfLib) (e : ErrorObj) (s : UdpSender) (file : Str) : List Str :=
  (tokenize (mf.timestamp e.timestamp ++ ['|'])).tail ++ header mf e s file ++
    tokenize (UdpSender.fillUsrMsg e)

/-- The fields `read_msg` reads from the packet of a message. -/
def Reads (mf : MfLib) (e : ErrorObj) (s : UdpSender) (f : Fields) : Prop :=
  ∃ p s' fuel, s.packet mf e = some (p, s') ∧ readPacket lib fuel p = some (.ok f)

/-- The separators of the timestamp. -/
def bars (mf : MfLib) (e : ErrorObj) : ℕ := (mf.timestamp e.timestamp).count '|'

theorem length_pieces : (tokenize (mf.timestamp e.timestamp ++ ['|'])).tail.length = bars mf e := by
  rw [List.length_tail, length_tokenize_bar]
  rfl

variable {lib}

theorem readPacket_eq (hlib : RejectsNumbers lib) (hdate : Dated lib (mf.timestamp e.timestamp))
    (hc : Clean mf e s file) (hp : s.packet mf e = some (p, s')) :
    (∃ fuel tv, readPacket lib fuel p = some (readFields lib tv (afterDate mf e s file))) ∧
      ∀ {fuel r}, readPacket lib fuel p = some r →
        ∃ tv, r = readFields lib tv (afterDate mf e s file) := by
  obtain ⟨date, ⟨tail, htail⟩, hdigit, hbar, hnul, hstrp⟩ := hdate
  have hne : tokenize (tail ++ ['|']) ≠ [] := fun h => by simpa using tokenize_eq_nil h
  obtain ⟨t, ts, ht⟩ := List.exists_cons_of_ne_nil hne
  have htok : tokenize (mf.timestamp e.timestamp ++ ['|']) = (date ++ t) :: ts := by
    rw [← htail, List.append_assoc, tokenize_prefix hbar ht]
  have hpacket := tokenize_packet hc hp
  rw [htok, List.cons_append, List.cons_append] at hpacket
  have hpid : 0 ≤ s.pid := by
    have := hc.pid
    omega
  obtain ⟨⟨fuel, tm, hends⟩, hthere⟩ := searchTokens_second lib
    (ts ++ header mf e s file ++ tokenize (UdpSender.fillUsrMsg e)) (hasDate_pid lib hlib hpid)
    (endsInDigit_pid hpid) (hasDate_of_front lib (List.prefix_append date t) hdigit hnul hstrp)
  rw [afterDate, htok]
  refine ⟨⟨fuel, lib.mktime tm, ?_⟩, fun {fuel r} hr => ?_⟩
  · rw [readPacket, hpacket]
    simp only [hends, Option.map_some, List.tail_cons]
  · rw [readPacket, hpacket] at hr
    simp only [Option.map_eq_some_iff] at hr
    obtain ⟨⟨tm, it⟩, hs, rfl⟩ := hr
    exact ⟨lib.mktime tm, by rw [hthere hs, List.tail_cons]⟩

/-- The search ends past the first token of the timestamp, and the rest is read. -/
theorem Reads.fields (hlib : RejectsNumbers lib) (hdate : Dated lib (mf.timestamp e.timestamp))
    (hc : Clean mf e s file) {f : Fields} (h : Reads lib mf e s f) :
    ∃ tv, readFields lib tv (afterDate mf e s file) = .ok f := by
  obtain ⟨p, s', fuel, hp, hr⟩ := h
  obtain ⟨tv, ht⟩ := (readPacket_eq hlib hdate hc hp).2 hr
  exact ⟨tv, ht.symm⟩

theorem exists_reads (hlib : RejectsNumbers lib) (hdate : Dated lib (mf.timestamp e.timestamp))
    (hc : Clean mf e s file) {f : ℤ → Fields}
    (h : ∀ tv, readFields lib tv (afterDate mf e s file) = .ok (f tv)) :
    ∃ tv, Reads lib mf e s (f tv) := by
  have hsome : ∃ p s', s.packet mf e = some (p, s') := by
    rw [UdpSender.packet, UdpSender.fillPrefix, hc.trimmed]
    exact ⟨_, _, rfl⟩
  obtain ⟨p, s', hp⟩ := hsome
  obtain ⟨⟨fuel, tv, hr⟩, -⟩ := readPacket_eq hlib hdate hc hp
  exact ⟨tv, p, s', fuel, hp, by rw [hr, h]⟩

/-! ## Reading the header -/

theorem readNumber_cons (conv : Str → Except StoErr ℤ) (a t : Str) (ts : List Str) :
    readNumber conv (a :: t :: ts) = match conv t with
      | .ok n => .ok (n, t :: ts)
      | .error .invalidArgument => .ok (0, a :: t :: ts)
      | .error .outOfRange => .error .outOfRange := rfl

/-- With the iterator at the sequence number, or at what was read as it, the fields are those that
were written. -/
theorem readFields_header (hc : Clean mf e s file) {it body : List Str} {n : ℤ}
    (h : readNumber stoi it = .ok (n, header mf e s file ++ body)) (tvSec : ℤ) :
    readFields lib tvSec it = .ok
      { hostname := s.hostname, hostaddr := s.hostaddr
        sev := lib.elSeverity (mf.getName e.severity), category := UdpSender.bang e.id
        application := UdpSender.bang s.app, pid := s.pid
        eventID := mf.iteration, module := UdpSender.bang e.module, file
        line := number e.lineNumber, message := "|".toList.intercalate body, tvSec
        seqNum := n } := by
  have hpid := hc.pid
  have hstol : stol (number s.pid) = .ok s.pid := sto_number (by omega) (by omega)
  have hbmod : s.pid.bmod (2 ^ 32) = s.pid := Int.bmod_eq_of_le (by omega) (by omega)
  refine (readFields_ok lib).2 ⟨n, _, s.pid, number s.pid :: mf.iteration ::
    UdpSender.bang e.module :: file :: number e.lineNumber :: body, h, ?_, ?_⟩
  · simp only [header, List.cons_append, List.nil_append, List.drop_succ_cons, List.drop_zero,
      readNumber_cons, hstol]
  · simp only [fieldsAt, hbmod]
    rfl

theorem readNumber_one (hone : bars mf e = 1) (hseq : 0 ≤ s.seqNum ∧ s.seqNum + 1 < 2 ^ 31) :
    readNumber stoi (afterDate mf e s file) = .ok (s.seqNum + 1,
      header mf e s file ++ tokenize (UdpSender.fillUsrMsg e)) := by
  obtain ⟨t, ht⟩ := List.length_eq_one_iff.1 (length_pieces.trans hone)
  have hstoi : stoi (number (s.seqNum + 1)) = .ok (s.seqNum + 1) := sto_number (by omega) hseq.2
  rw [afterDate, ht]
  simp only [header, List.cons_append, List.nil_append, readNumber_cons, hstoi]

/-- Without a separator in the timestamp the host name is read as the sequence number. -/
theorem readNumber_zero (hzero : bars mf e = 0) :
    readNumber stoi (afterDate mf e s file) = match stoi s.hostname with
      | .ok n => .ok (n, (header mf e s file ++ tokenize (UdpSender.fillUsrMsg e)).drop 1)
      | .error .invalidArgument => .ok (0, header mf e s file ++
          tokenize (UdpSender.fillUsrMsg e))
      | .error .outOfRange => .error .outOfRange := by
  rw [afterDate, List.eq_nil_of_length_eq_zero (length_pieces.trans hzero)]
  simp only [header, List.cons_append, List.nil_append, readNumber_cons]
  rfl

end UdpReceiver

end MfExtensions
