import Mathlib.Tactic.NormNum
import MfExtensions.Proofs.Stored

/-!
# The round trip of a packet

What the message that the reader makes stores of a header (`header_recovered_iff`) and of a body
(`body_recovered_iff`), and whether the other fields depend on the host name
(`host_independent_iff`).
-/

namespace MfExtensions

namespace UdpReceiver

/-! ## One second -/

/-- The time stamp of every message here. -/
def second : Str := "01-Jan-2024 00:00:00".toList

/-- A library that reads one date and two levels. -/
def secondLib : UdpLib Unit where
  strptime s := (id, second.isPrefixOf s)
  mktime _ := 1704067200
  tm := ()
  elSeverity s := if s = "INFO".toList then .info else .error
  elDefault := .zeroSeverity
  timestamp _ := second

/-- A format that writes `sep` after the date. -/
def secondMf (sep : Str) : MfLib where
  timestamp _ := second ++ sep
  getName sev := if sev = .info then "INFO".toList else "ERROR".toList
  iteration := "Run 1".toList

def infoObj (body : Str) : ErrorObj where
  timestamp := 1704067200
  severity := .info
  id := "cat|egory".toList
  module := "module".toList
  filename := "/src/a.cc".toList
  lineNumber := 12
  items := [body]

def sender (hostname : Str) : UdpSender where
  seqNum := 0
  pid := 77
  hostname
  hostaddr := "10.0.0.1".toList
  app := "app".toList
  filenameDelimit := "/".toList

theorem secondLib_rejectsNumbers : RejectsNumbers secondLib := by
  intro s hs
  rw [Bool.eq_false_iff]
  intro h
  have hdash : '-' ∈ s := (List.isPrefixOf_iff_prefix.1 h).subset (by decide)
  exact absurd (hs _ hdash) (by decide)

theorem second_dated (sep : Str) (body : Str) :
    Dated secondLib ((secondMf sep).timestamp (infoObj body).timestamp) :=
  ⟨second, List.prefix_append second sep, by decide, by decide, by decide, fun rest =>
    List.isPrefixOf_iff_prefix.2 (List.prefix_append second rest)⟩

theorem sender_clean (sep body hostname : Str) (h : '|' ∉ hostname) :
    Clean (secondMf sep) (infoObj body) (sender hostname) "a.cc".toList :=
  have hfile : UdpSender.trimFilename "/".toList "/src/a.cc".toList = some "a.cc".toList := by
    decide
  have haddr : '|' ∉ "10.0.0.1".toList := by decide
  have hsev : '|' ∉ "INFO".toList := by decide
  have hiter : '|' ∉ "Run 1".toList := by decide
  ⟨hfile, h, haddr, hsev, hiter, by decide, (by decide : (1 : ℤ) ≤ 77),
    (by decide : (77 : ℤ) < 2 ^ 31)⟩

variable {Tm : Type} {lib : UdpLib Tm} {mf : MfLib} {e : ErrorObj} {s : UdpSender} {file : Str}

/-! ## The header -/

/-- The reader has what the sender wrote, and `!` where the sender replaced a separator. -/
structure Recovers (mf : MfLib) (e : ErrorObj) (s : UdpSender) (file : Str) (f : Fields) :
    Prop where
  seqNum : f.seqNum = s.seqNum + 1
  hostname : f.hostname = s.hostname
  hostaddr : f.hostaddr = s.hostaddr
  sev : f.sev = e.severity
  category : f.category = UdpSender.bang e.id
  application : f.application = UdpSender.bang s.app
  pid : f.pid = s.pid
  eventID : f.eventID = mf.iteration
  module : f.module = UdpSender.bang e.module
  file : f.file = file
  line : f.line = number e.lineNumber

/-- The number read is that of the second token. -/
theorem seqNum_eq {tv : ℤ} {it : List Str} {f : Fields} (h : readFields lib tv it = .ok f)
    {a t : Str} {ts : List Str} (hit : it = a :: t :: ts) :
    f.seqNum = (stoi t).toOption.getD 0 := by
  subst hit
  obtain ⟨n, it₁, m, it₂, hn, -, rfl⟩ := (readFields_ok lib).1 h
  rw [readNumber_cons] at hn
  show n = _
  cases ht : stoi t with
  | ok v =>
    simp only [ht, Except.ok.injEq, Prod.mk.injEq] at hn
    exact hn.1.symm
  | error err =>
    cases err with
    | invalidArgument =>
      simp only [ht, Except.ok.injEq, Prod.mk.injEq] at hn
      exact hn.1.symm
    | outOfRange => simp [ht] at hn

theorem Clean.seqNum (hc : Clean mf e s file) (seqNum : ℤ) : Clean mf e { s with seqNum } file :=
  ⟨hc.trimmed, hc.hostname, hc.hostaddr, hc.severity, hc.iteration, hc.file, hc.pid⟩

/-- The message `read_msg` makes of the packet of a message. -/
def ReadsMsg (lib : UdpLib Tm) (mf : MfLib) (e : ErrorObj) (s : UdpSender) (m : QtMfMsg) : Prop :=
  ∃ p s' fuel, s.packet mf e = some (p, s') ∧ readMsg lib fuel p = some (.ok m)

theorem readsMsg_iff {m : QtMfMsg} :
    ReadsMsg lib mf e s m ↔ ∃ f, Reads lib mf e s f ∧ m = toMsg lib f := by
  constructor
  · rintro ⟨p, s', fuel, hp, hm⟩
    rw [readMsg_eq] at hm
    obtain ⟨r, hr, hm⟩ := Option.map_eq_some_iff.1 hm
    cases r with
    | error err => cases hm
    | ok f => exact ⟨f, ⟨p, s', fuel, hp, hr⟩, (Except.ok.inj hm).symm⟩
  · rintro ⟨f, ⟨p, s', fuel, hp, hr⟩, rfl⟩
    exact ⟨p, s', fuel, hp, by rw [readMsg_eq, hr]; rfl⟩

/-- The message stores what the sender wrote, and `!` where the sender replaced a separator. -/
structure Stores (mf : MfLib) (e : ErrorObj) (s : UdpSender) (file : Str) (m : QtMfMsg) :
    Prop where
  sourceSequence : m.sourceSequence = s.seqNum + 1
  host : m.host = s.hostname
  hostaddr : m.hostaddr = s.hostaddr
  sev : m.sev.level = e.severity
  cat : m.cat = UdpSender.bang e.id
  app : m.app = UdpSender.bang s.app ++ " (".toList ++ number s.pid ++ ")".toList
  application : m.application = UdpSender.bang s.app
  pid : m.pid = number s.pid
  eventID : m.eventID = mf.iteration
  module : m.module = UdpSender.bang e.module
  file : m.file = file
  line : m.line = number e.lineNumber

/-- The level is one of the viewer's four, and the strings are stored as they are: none has a NUL,
and those that are escaped have nothing to escape. -/
structure Storable (mf : MfLib) (e : ErrorObj) (s : UdpSender) (file : Str) : Prop where
  host : Char.ofNat 0 ∉ s.hostname
  hostaddr : Verbatim s.hostaddr
  sev : e.severity ∈ [.success, .info, .warning, .error]
  cat : Char.ofNat 0 ∉ UdpSender.bang e.id
  application : Verbatim (UdpSender.bang s.app)
  eventID : Verbatim mf.iteration
  module : Verbatim (UdpSender.bang e.module)
  file : Verbatim file

theorem level_toMsg (lib : UdpLib Tm) (f : Fields) : (toMsg lib f).sev.level = f.sev ↔
    f.sev ∈ [.success, .info, .warning, .error] := by
  have hsev : (toMsg lib f).sev = ((QtMfMsg.mk' f.hostname f.category f.application f.pid
      f.tvSec).setSeverity f.sev).sev := by
    cases h : f.sev <;> simp only [toMsg, h] <;> rfl
  rw [hsev]
  exact level_setSeverity_iff rfl

/-- The members of a message that setting the severity leaves as the constructor made them. -/
theorem toMsg_members (lib : UdpLib Tm) (f : Fields) :
    (toMsg lib f).host = cStr f.hostname ∧ (toMsg lib f).cat = cStr f.category ∧
    (toMsg lib f).app = cStr (f.application ++ " (".toList ++ number f.pid ++ ")".toList) ∧
    (toMsg lib f).application = htmlEscaped (cStr f.application) ∧
    (toMsg lib f).pid = number f.pid := by
  cases h : f.sev <;> simp only [toMsg, h] <;> exact ⟨rfl, rfl, rfl, rfl, rfl⟩

/-- Fields that are recovered are stored if and only if they can be. -/
theorem Recovers.stores_iff {f : Fields} (h : Recovers mf e s file f) :
    Stores mf e s file (toMsg lib f) ↔ Storable mf e s file := by
  obtain ⟨hhost, hcat, happ, happlication, hpid⟩ := toMsg_members lib f
  have haddr : (toMsg lib f).hostaddr = htmlEscaped (cStr f.hostaddr) := rfl
  have hiter : (toMsg lib f).eventID = htmlEscaped (cStr f.eventID) := rfl
  have hmodule : (toMsg lib f).module = htmlEscaped (cStr f.module) := rfl
  have hfile : (toMsg lib f).file = htmlEscaped (cStr f.file) := rfl
  have hline : (toMsg lib f).line = htmlEscaped (cStr f.line) := rfl
  have hsev := level_toMsg lib f
  rw [h.hostname] at hhost
  rw [h.category] at hcat
  rw [h.application, h.pid] at happ
  rw [h.application] at happlication
  rw [h.pid] at hpid
  rw [h.hostaddr] at haddr
  rw [h.eventID] at hiter
  rw [h.module] at hmodule
  rw [h.file] at hfile
  rw [h.line] at hline
  rw [h.sev] at hsev
  constructor
  · intro hs
    exact ⟨cStr_iff.1 (hhost.symm.trans hs.host),
      htmlEscaped_cStr_iff.1 (haddr.symm.trans hs.hostaddr), hsev.1 hs.sev,
      cStr_iff.1 (hcat.symm.trans hs.cat),
      htmlEscaped_cStr_iff.1 (happlication.symm.trans hs.application),
      htmlEscaped_cStr_iff.1 (hiter.symm.trans hs.eventID),
      htmlEscaped_cStr_iff.1 (hmodule.symm.trans hs.module),
      htmlEscaped_cStr_iff.1 (hfile.symm.trans hs.file)⟩
  · intro hs
    have hnul : Char.ofNat 0 ∉
        UdpSender.bang s.app ++ " (".toList ++ number s.pid ++ ")".toList := by
      have hnumber := (verbatim_number s.pid).nul
      simp [hs.application.nul, hnumber]
    exact ⟨h.seqNum, hhost.trans (cStr_iff.2 hs.host),
      haddr.trans (htmlEscaped_cStr_iff.2 hs.hostaddr), hsev.2 hs.sev,
      hcat.trans (cStr_iff.2 hs.cat), happ.trans (cStr_iff.2 hnul),
      happlication.trans (htmlEscaped_cStr_iff.2 hs.application), hpid,
      hiter.trans (htmlEscaped_cStr_iff.2 hs.eventID),
      hmodule.trans (htmlEscaped_cStr_iff.2 hs.module),
      hfile.trans (htmlEscaped_cStr_iff.2 hs.file),
      hline.trans (htmlEscaped_cStr_iff.2 (verbatim_number _))⟩

/-- The iterator expects the sequence number two tokens on, so it finds it if and only if the
timestamp has one separator. -/
theorem bars_of_seqNums (hlib : RejectsNumbers lib)
    (hdate : Dated lib (mf.timestamp e.timestamp)) (hc : Clean mf e s file)
    (h : ∀ seqNum, 0 ≤ seqNum → seqNum + 1 < 2 ^ 31 →
      ∃ f, Reads lib mf e { s with seqNum } f ∧ f.seqNum = seqNum + 1) : bars mf e = 1 := by
  by_contra hne
  have hsecond : ∃ t, ∀ seqNum, ∃ a ts, afterDate mf e { s with seqNum } file = a :: t :: ts := by
    rcases hts : (tokenize (mf.timestamp e.timestamp ++ ['|'])).tail with _ | ⟨a, _ | ⟨t, ts⟩⟩
    · exact ⟨s.hostname, fun seqNum => ⟨_, _, by rw [afterDate, hts]; rfl⟩⟩
    · rw [← length_pieces, hts] at hne
      exact absurd rfl hne
    · exact ⟨t, fun seqNum => ⟨_, _, by rw [afterDate, hts]; rfl⟩⟩
  obtain ⟨t, hsecond⟩ := hsecond
  have hread : ∀ seqNum, 0 ≤ seqNum → seqNum + 1 < 2 ^ 31 →
      seqNum + 1 = (stoi t).toOption.getD 0 := by
    intro seqNum h₀ h₁
    obtain ⟨f, hf, hnum⟩ := h seqNum h₀ h₁
    obtain ⟨tv, hfields⟩ := hf.fields hlib hdate (hc.seqNum seqNum)
    obtain ⟨a, ts, hit⟩ := hsecond seqNum
    rw [← seqNum_eq hfields hit, hnum]
  have h₀ := hread 0 (by norm_num) (by norm_num)
  have h₁ := hread 1 (by norm_num) (by norm_num)
  omega

/-- With one separator in the timestamp the fields are recovered, and no others are read. -/
theorem recovers_of_bars (hlib : RejectsNumbers lib)
    (hdate : Dated lib (mf.timestamp e.timestamp)) (hc : Clean mf e s file)
    (hsev : lib.elSeverity (mf.getName e.severity) = e.severity) (hone : bars mf e = 1)
    (hseq : 0 ≤ s.seqNum ∧ s.seqNum + 1 < 2 ^ 31) :
    (∃ f, Reads lib mf e s f) ∧ ∀ f, Reads lib mf e s f → Recovers mf e s file f := by
  have hheader : ∀ tv, readFields lib tv _ = _ := readFields_header hc (readNumber_one hone hseq)
  obtain ⟨tv, hreads⟩ := exists_reads hlib hdate hc hheader
  refine ⟨⟨_, hreads⟩, fun f hf => ?_⟩
  obtain ⟨tv, hfields⟩ := hf.fields hlib hdate hc
  rw [hheader tv] at hfields
  obtain rfl := Except.ok.inj hfields
  exact ⟨rfl, rfl, rfl, hsev, rfl, rfl, rfl, rfl, rfl, rfl, rfl⟩

/-- The message stores the header under every sequence number if and only if the timestamp has one
separator and the header can be stored. -/
theorem header_recovered_iff (hlib : RejectsNumbers lib)
    (hdate : Dated lib (mf.timestamp e.timestamp)) (hc : Clean mf e s file)
    (hsev : lib.elSeverity (mf.getName e.severity) = e.severity) :
    (∀ seqNum, 0 ≤ seqNum → seqNum + 1 < 2 ^ 31 →
      ∃ m, ReadsMsg lib mf e { s with seqNum } m ∧ Stores mf e { s with seqNum } file m) ↔
    bars mf e = 1 ∧ Storable mf e s file := by
  constructor
  · intro h
    have hone : bars mf e = 1 := by
      refine bars_of_seqNums hlib hdate hc fun seqNum h₀ h₁ => ?_
      obtain ⟨m, hm, hstores⟩ := h seqNum h₀ h₁
      obtain ⟨f, hf, rfl⟩ := readsMsg_iff.1 hm
      exact ⟨f, hf, hstores.sourceSequence⟩
    obtain ⟨m, hm, hstores⟩ := h 0 (by norm_num) (by norm_num)
    obtain ⟨f, hf, rfl⟩ := readsMsg_iff.1 hm
    have hrec := (recovers_of_bars hlib hdate (hc.seqNum 0) hsev hone (by norm_num)).2 f hf
    obtain ⟨hhost, haddr, hlevel, hcat, happ, hiter, hmodule, hfile⟩ := hrec.stores_iff.1 hstores
    exact ⟨hone, hhost, haddr, hlevel, hcat, happ, hiter, hmodule, hfile⟩
  · rintro ⟨hone, hs⟩ seqNum h₀ h₁
    obtain ⟨⟨f, hf⟩, hall⟩ :=
      recovers_of_bars hlib hdate (hc.seqNum seqNum) hsev hone ⟨h₀, h₁⟩
    refine ⟨toMsg lib f, readsMsg_iff.2 ⟨f, hf, rfl⟩, (hall f hf).stores_iff.2 ?_⟩
    exact ⟨hs.host, hs.hostaddr, hs.sev, hs.cat, hs.application, hs.eventID, hs.module, hs.file⟩

theorem header_recovered_first : ∃ m, ReadsMsg secondLib (secondMf ['|']) (infoObj [])
    (sender "node".toList) m ∧ Stores (secondMf ['|']) (infoObj []) (sender "node".toList)
      "a.cc".toList m :=
  (header_recovered_iff secondLib_rejectsNumbers (second_dated ['|'] [])
    (sender_clean ['|'] [] _ (by decide)) (by decide)).2
    ⟨by decide, by decide, by decide, by decide, by decide, by decide, by decide, by decide,
      by decide⟩ 0 (by decide) (by decide)

/-- With the date alone as the time stamp, the sequence number of the host `node` is lost. -/
theorem header_lost : RejectsNumbers secondLib ∧
    Dated secondLib ((secondMf []).timestamp (infoObj []).timestamp) ∧
    Clean (secondMf []) (infoObj []) (sender "node".toList) "a.cc".toList ∧
    secondLib.elSeverity ((secondMf []).getName (infoObj []).severity) = (infoObj []).severity ∧
    ¬∃ m, ReadsMsg secondLib (secondMf []) (infoObj []) (sender "node".toList) m ∧
      Stores (secondMf []) (infoObj []) (sender "node".toList) "a.cc".toList m := by
  have hdate := second_dated [] []
  have hc := sender_clean [] [] "node".toList (by decide)
  refine ⟨secondLib_rejectsNumbers, hdate, hc, by decide, fun ⟨m, hm, hstores⟩ => ?_⟩
  obtain ⟨f, hf, rfl⟩ := readsMsg_iff.1 hm
  obtain ⟨tv, hfields⟩ := hf.fields secondLib_rejectsNumbers hdate hc
  have hzero : f.seqNum = 0 := seqNum_eq hfields rfl
  have hone : f.seqNum = 1 := hstores.sourceSequence
  omega

/-! ## The body -/

/-- The iterator past the first number is at the sequence number. -/
def Recognised (mf : MfLib) (e : ErrorObj) (s : UdpSender) : Prop :=
  bars mf e = 1 ∨ bars mf e = 0 ∧ stoi s.hostname = .error .invalidArgument

variable (file) in
theorem Recognised.readNumber (h : Recognised mf e s)
    (hseq : 0 ≤ s.seqNum ∧ s.seqNum + 1 < 2 ^ 31) :
    ∃ n, readNumber stoi (afterDate mf e s file) =
      .ok (n, header mf e s file ++ tokenize (UdpSender.fillUsrMsg e)) := by
  rcases h with hone | ⟨hzero, hhost⟩
  · exact ⟨s.seqNum + 1, readNumber_one hone hseq⟩
  · exact ⟨0, by rw [readNumber_zero hzero, hhost]⟩

/-- A body is stored as it was written if and only if it has no separator at its end and nothing in
it is escaped or ends it. -/
theorem body_recovered_iff (hlib : RejectsNumbers lib)
    (hdate : Dated lib (mf.timestamp e.timestamp)) (hc : Clean mf e s file)
    (hseq : 0 ≤ s.seqNum ∧ s.seqNum + 1 < 2 ^ 31) (hrec : Recognised mf e s) :
    (∃ m, ReadsMsg lib mf e s m ∧ m.msg = UdpSender.fillUsrMsg e) ↔
      (UdpSender.fillUsrMsg e).getLast? ≠ some '|' ∧ Verbatim (UdpSender.fillUsrMsg e) := by
  obtain ⟨n, hn⟩ := hrec.readNumber file hseq
  have hjoin := intercalate_tokenize (UdpSender.fillUsrMsg e)
  constructor
  · rintro ⟨m, hm, hmsg⟩
    obtain ⟨f, hf, rfl⟩ := readsMsg_iff.1 hm
    obtain ⟨tv, hfields⟩ := hf.fields hlib hdate hc
    rw [readFields_header hc hn tv] at hfields
    obtain rfl := Except.ok.inj hfields
    replace hmsg : htmlEscaped (cStr ("|".toList.intercalate (tokenize (UdpSender.fillUsrMsg e)))) =
        UdpSender.fillUsrMsg e := hmsg
    rw [hjoin] at hmsg
    split_ifs at hmsg with hlast
    · obtain ⟨body, hbody⟩ := List.getLast?_eq_some_iff.1 hlast
      rw [hbody, List.dropLast_concat] at hmsg
      exact absurd ((htmlEscaped_cStr_append_iff (by decide)).1 hmsg).2 (by decide)
    · exact ⟨hlast, htmlEscaped_cStr_iff.1 hmsg⟩
  · rintro ⟨hlast, hplain⟩
    rw [if_neg hlast] at hjoin
    obtain ⟨tv, hreads⟩ := exists_reads hlib hdate hc (readFields_header hc hn)
    refine ⟨_, readsMsg_iff.2 ⟨_, hreads, rfl⟩, ?_⟩
    show htmlEscaped (cStr ("|".toList.intercalate (tokenize (UdpSender.fillUsrMsg e)))) = _
    rw [hjoin, htmlEscaped_cStr_iff.2 hplain]

theorem body_recovered_first : ∃ m, ReadsMsg secondLib (secondMf []) (infoObj "|a||b".toList)
    (sender "node".toList) m ∧ m.msg = "|a||b".toList :=
  (body_recovered_iff secondLib_rejectsNumbers (second_dated [] "|a||b".toList)
    (sender_clean [] "|a||b".toList _ (by decide)) (by decide)
    (.inr ⟨by decide, by decide⟩)).2 ⟨by decide, by decide⟩

/-- The separator at the end of a body is lost. -/
theorem body_lost : Recognised (secondMf []) (infoObj "a|".toList) (sender "node".toList) ∧
    UdpSender.fillUsrMsg (infoObj "a|".toList) = "a|".toList ∧
    ∃ m, ReadsMsg secondLib (secondMf []) (infoObj "a|".toList) (sender "node".toList) m ∧
      m.msg = "a".toList := by
  have hrec : Recognised (secondMf []) (infoObj "a|".toList) (sender "node".toList) :=
    .inr ⟨by decide, by decide⟩
  have hc := sender_clean [] "a|".toList "node".toList (by decide)
  obtain ⟨n, hn⟩ := hrec.readNumber "a.cc".toList (by decide)
  obtain ⟨tv, hreads⟩ := exists_reads secondLib_rejectsNumbers (second_dated [] "a|".toList) hc
    (readFields_header hc hn)
  refine ⟨hrec, by decide, _, readsMsg_iff.2 ⟨_, hreads, rfl⟩, ?_⟩
  show htmlEscaped (cStr ("|".toList.intercalate (tokenize "a|".toList))) = "a".toList
  decide

/-! ## Two host names -/

/-- The fields are the same but for the host name and the time. -/
def Alike (f f' : Fields) : Prop :=
  { f with hostname := [], tvSec := 0 } = { f' with hostname := [], tvSec := 0 }

/-- The packets with two host names are both read, and the same fields from both. -/
def HostIndependent (lib : UdpLib Tm) (mf : MfLib) (e : ErrorObj) (s : UdpSender) (h h' : Str) :
    Prop :=
  ∃ f f', Reads lib mf e { s with hostname := h } f ∧ Reads lib mf e { s with hostname := h' } f' ∧
    Alike f f'

/-- The messages are the same but for the host name, the time and the text that shows them. -/
def StoredAlike (m m' : QtMfMsg) : Prop :=
  { m with host := [], time := 0, text := [] } = { m' with host := [], time := 0, text := [] }

theorem Alike.toMsg {f f' : Fields} (h : Alike f f') :
    StoredAlike (toMsg lib f) (toMsg lib f') := by
  have hf' : f' = { f with hostname := f'.hostname, tvSec := f'.tvSec } := by
    have hback := congrArg (fun g : Fields =>
      { g with hostname := f'.hostname, tvSec := f'.tvSec }) h
    exact hback.symm
  rw [hf', StoredAlike]
  cases hsev : f.sev <;> simp only [UdpReceiver.toMsg, hsev] <;> rfl

/-- Fields that do not depend on the host name are stored so. -/
theorem HostIndependent.stored {h h' : Str} (hi : HostIndependent lib mf e s h h') :
    ∃ m m', ReadsMsg lib mf e { s with hostname := h } m ∧
      ReadsMsg lib mf e { s with hostname := h' } m' ∧ StoredAlike m m' := by
  obtain ⟨f, f', hf, hf', halike⟩ := hi
  exact ⟨_, _, readsMsg_iff.2 ⟨f, hf, rfl⟩, readsMsg_iff.2 ⟨f', hf', rfl⟩, halike.toMsg⟩

theorem Clean.host (hc : Clean mf e s file) {h : Str} (hh : '|' ∉ h) :
    Clean mf e { s with hostname := h } file :=
  ⟨hc.trimmed, hh, hc.hostaddr, hc.severity, hc.iteration, hc.file, hc.pid⟩

variable {h h' : Str}

/-- Fields that are read whatever the host name is. -/
theorem host_recognised (hlib : RejectsNumbers lib)
    (hdate : Dated lib (mf.timestamp e.timestamp)) (hc : Clean mf e s file) (hh : '|' ∉ h)
    (hh' : '|' ∉ h') {n : ℤ}
    (hn : readNumber stoi (afterDate mf e { s with hostname := h } file) =
      .ok (n, header mf e { s with hostname := h } file ++ tokenize (UdpSender.fillUsrMsg e)))
    (hn' : readNumber stoi (afterDate mf e { s with hostname := h' } file) =
      .ok (n, header mf e { s with hostname := h' } file ++ tokenize (UdpSender.fillUsrMsg e))) :
    HostIndependent lib mf e s h h' := by
  obtain ⟨tv, hr⟩ := exists_reads hlib hdate (hc.host hh) (readFields_header (hc.host hh) hn)
  obtain ⟨tv', hr'⟩ := exists_reads hlib hdate (hc.host hh') (readFields_header (hc.host hh') hn')
  exact ⟨_, _, hr, hr', rfl⟩

theorem intercalate_cons_ne {t : Str} (ht : t ≠ []) (ts : List Str) :
    "|".toList.intercalate (t :: ts) ≠ "|".toList.intercalate ts := by
  intro h
  have hlen := congrArg List.length h
  have := List.length_pos_of_ne_nil ht
  cases ts with
  | nil =>
    rw [List.intercalate_singleton] at h
    exact ht h
  | cons u us =>
    rw [List.intercalate_cons_cons, List.length_append, List.length_append] at hlen
    omega

/-- Joined tokens of which one differs in length. -/
theorem intercalate_ne {t t' : Str} (h : t.length ≠ t'.length) (post : List Str) :
    ∀ pre : List Str, "|".toList.intercalate (pre ++ t :: post) ≠
      "|".toList.intercalate (pre ++ t' :: post)
  | [], heq => by
    have hlen := congrArg List.length heq
    cases post with
    | nil => exact h (by simpa using hlen)
    | cons u us =>
      simp only [List.nil_append, List.intercalate_cons_cons, List.length_append] at hlen
      omega
  | a :: pre, heq => by
    obtain ⟨b, bs, hb⟩ := List.exists_cons_of_ne_nil
      (show pre ++ t :: post ≠ [] by simp)
    obtain ⟨b', bs', hb'⟩ := List.exists_cons_of_ne_nil
      (show pre ++ t' :: post ≠ [] by simp)
    rw [List.cons_append, List.cons_append, hb, hb', List.intercalate_cons_cons,
      List.intercalate_cons_cons, ← hb, ← hb'] at heq
    exact intercalate_ne h post pre (List.append_cancel_left heq)

/-! ### A timestamp without separators -/

/-- The iterator past a host name that was read as the sequence number. -/
theorem readFields_shifted (hzero : bars mf e = 0) {v : ℤ} (hv : stoi s.hostname = .ok v) {tv : ℤ}
    {f : Fields} : readFields lib tv (afterDate mf e s file) = .ok f ↔
      ∃ pid it, readNumber stol ((header mf e s file ++ tokenize (UdpSender.fillUsrMsg e)).drop 6) =
        .ok (pid, it) ∧ f = fieldsAt lib tv v
          ((header mf e s file ++ tokenize (UdpSender.fillUsrMsg e)).drop 1) pid it := by
  have hn : readNumber stoi (afterDate mf e s file) =
      .ok (v, (header mf e s file ++ tokenize (UdpSender.fillUsrMsg e)).drop 1) := by
    rw [readNumber_zero hzero, hv]
  rw [readFields_ok, hn]
  constructor
  · rintro ⟨_, _, pid, it, heq, hpid, rfl⟩
    obtain ⟨rfl, rfl⟩ := Prod.mk.inj (Except.ok.inj heq)
    exact ⟨pid, it, by rwa [List.drop_drop] at hpid, rfl⟩
  · rintro ⟨pid, it, hpid, rfl⟩
    exact ⟨_, _, pid, it, rfl, by rwa [List.drop_drop], rfl⟩

variable (file) in
/-- One field further on, the iteration is read where the process id is looked for. -/
theorem exists_pid (hiter : stol mf.iteration ≠ .error .outOfRange) :
    ∃ pid it, readNumber stol ((header mf e s file ++
      tokenize (UdpSender.fillUsrMsg e)).drop 6) = .ok (pid, it) := by
  simp only [header, List.cons_append, List.nil_append, List.drop_succ_cons, List.drop_zero,
    readNumber_cons]
  rcases hstol : stol mf.iteration with (_ | _) | m
  · exact ⟨_, _, rfl⟩
  · exact absurd hstol hiter
  · exact ⟨_, _, rfl⟩

/-- Of two host names that are no number and a number, the fields differ. -/
theorem not_alike (hzero : bars mf e = 0) (hc : Clean mf e s file)
    (hinv : stoi h = .error .invalidArgument) {v : ℤ} (hv : stoi h' = .ok v) (hh : '|' ∉ h)
    {tv tv' : ℤ} {f f' : Fields}
    (hf : readFields lib tv (afterDate mf e { s with hostname := h } file) = .ok f)
    (hf' : readFields lib tv' (afterDate mf e { s with hostname := h' } file) = .ok f') :
    ¬Alike f f' := by
  intro halike
  have hn : readNumber stoi (afterDate mf e { s with hostname := h } file) = .ok (0,
      header mf e { s with hostname := h } file ++ tokenize (UdpSender.fillUsrMsg e)) := by
    rw [readNumber_zero hzero, hinv]
  rw [readFields_header (hc.host hh) hn, Except.ok.injEq] at hf
  subst hf
  obtain ⟨pid, it, hpid, rfl⟩ :=
    (readFields_shifted hzero (s := { s with hostname := h' }) hv).1 hf'
  simp only [header, List.cons_append, List.nil_append, List.drop_succ_cons, List.drop_zero,
    readNumber_cons] at hpid
  cases hiter : stol mf.iteration with
  | ok m =>
    simp only [hiter, Except.ok.injEq, Prod.mk.injEq] at hpid
    obtain ⟨rfl, rfl⟩ := hpid
    -- the line is the first token of the body, and the text is the rest of it
    have hline : number e.lineNumber = (tokenize (UdpSender.fillUsrMsg e))[0]?.getD [] :=
      congrArg Fields.line halike
    have hmsg : "|".toList.intercalate (tokenize (UdpSender.fillUsrMsg e)) =
        "|".toList.intercalate ((tokenize (UdpSender.fillUsrMsg e)).drop 1) :=
      congrArg Fields.message halike
    cases hbody : tokenize (UdpSender.fillUsrMsg e) with
    | nil =>
      rw [hbody] at hline
      exact number_ne_nil _ hline
    | cons t ts =>
      rw [hbody] at hline hmsg
      have ht : t ≠ [] := fun ht => number_ne_nil e.lineNumber (hline.trans ht)
      exact intercalate_cons_ne ht ts hmsg
  | error err =>
    cases err with
    | outOfRange => simp [hiter] at hpid
    | invalidArgument =>
      simp only [hiter, Except.ok.injEq, Prod.mk.injEq] at hpid
      obtain ⟨rfl, rfl⟩ := hpid
      have hzero : s.pid = (0 : ℤ).bmod (2 ^ 32) := congrArg Fields.pid halike
      rw [Int.zero_bmod] at hzero
      have := hc.pid
      omega

theorem hostIndependent_zero (hlib : RejectsNumbers lib)
    (hdate : Dated lib (mf.timestamp e.timestamp)) (hc : Clean mf e s file)
    (hzero : bars mf e = 0) (hh : '|' ∉ h) (hh' : '|' ∉ h') :
    HostIndependent lib mf e s h h' ↔
      (stoi h = .error .invalidArgument ∧ stoi h' = .error .invalidArgument) ∨
      ∃ v, stoi h = .ok v ∧ stoi h' = .ok v ∧ stol mf.iteration ≠ .error .outOfRange := by
  have hthrow : ∀ {h tv f}, stoi h = .error .outOfRange →
      readFields lib tv (afterDate mf e { s with hostname := h } file) ≠ .ok f := by
    intro h tv f hout hf
    obtain ⟨_, _, _, _, hn, -⟩ := (readFields_ok lib).1 hf
    rw [readNumber_zero hzero, hout] at hn
    cases hn
  have hstay : ∀ {h}, stoi h = .error .invalidArgument →
      readNumber stoi (afterDate mf e { s with hostname := h } file) = .ok (0,
        header mf e { s with hostname := h } file ++ tokenize (UdpSender.fillUsrMsg e)) := by
    intro h hinv
    rw [readNumber_zero hzero, hinv]
  constructor
  · rintro ⟨f, f', hf, hf', halike⟩
    obtain ⟨tv, hf⟩ := hf.fields hlib hdate (hc.host hh)
    obtain ⟨tv', hf'⟩ := hf'.fields hlib hdate (hc.host hh')
    rcases hs : stoi h with (_ | _) | v
    · rcases hs' : stoi h' with (_ | _) | w
      · exact .inl ⟨rfl, rfl⟩
      · exact absurd hf' (hthrow hs')
      · exact absurd halike (not_alike hzero hc hs hs' hh hf hf')
    · exact absurd hf (hthrow hs)
    · rcases hs' : stoi h' with (_ | _) | w
      · exact absurd halike.symm (not_alike hzero hc hs' hs hh' hf' hf)
      · exact absurd hf' (hthrow hs')
      · obtain ⟨pid, it, hpid, rfl⟩ := (readFields_shifted hzero hs).1 hf
        obtain ⟨pid', it', -, rfl⟩ := (readFields_shifted hzero hs').1 hf'
        have hvw : v = w := congrArg Fields.seqNum halike
        refine .inr ⟨v, rfl, by rw [hvw], fun hiter => ?_⟩
        simp [header, readNumber_cons, hiter] at hpid
  · rintro (⟨hs, hs'⟩ | ⟨v, hs, hs', hiter⟩)
    · exact host_recognised hlib hdate hc hh hh' (hstay hs) (hstay hs')
    · obtain ⟨pid, it, hpid⟩ := exists_pid (e := e) (s := s) file hiter
      obtain ⟨tv, hr⟩ := exists_reads hlib hdate (hc.host hh) fun tv =>
        (readFields_shifted hzero hs).2 ⟨pid, it, hpid, rfl⟩
      obtain ⟨tv', hr'⟩ := exists_reads hlib hdate (hc.host hh') fun tv =>
        (readFields_shifted hzero hs').2 ⟨pid, it, hpid, rfl⟩
      exact ⟨_, _, hr, hr', rfl⟩

/-! ### A timestamp with several separators -/

theorem readNumber_split (conv : Str → Except StoErr ℤ) {q : List Str} (hq : 2 ≤ q.length)
    {t : Str} {post : List Str} {n : ℤ} {it : List Str}
    (h : readNumber conv (q ++ t :: post) = .ok (n, it)) :
    ∃ u, q.length ≤ u.length + 1 ∧ it = u ++ t :: post ∧
      ∀ t', readNumber conv (q ++ t' :: post) = .ok (n, u ++ t' :: post) := by
  obtain ⟨a, b, q, rfl⟩ : ∃ a b r, q = a :: b :: r := by
    match q, hq with
    | a :: b :: r, _ => exact ⟨a, b, r, rfl⟩
  simp only [List.cons_append, readNumber_cons] at h ⊢
  rcases hb : conv b with (_ | _) | m
  · simp only [hb, Except.ok.injEq, Prod.mk.injEq] at h
    obtain ⟨rfl, rfl⟩ := h
    exact ⟨a :: b :: q, by simp, rfl, fun t' => rfl⟩
  · simp [hb] at h
  · simp only [hb, Except.ok.injEq, Prod.mk.injEq] at h
    obtain ⟨rfl, rfl⟩ := h
    exact ⟨b :: q, by simp, rfl, fun t' => rfl⟩

/-- A token that is read as another field than the host name is seen there. -/
theorem apart {q post : List Str} (hq : 2 ≤ q.length) {t t' : Str}
    (ht : stol t = .error .invalidArgument) (ht' : stol t' = .error .invalidArgument)
    (hlen : t.length ≠ t'.length) (hsev : lib.elSeverity t ≠ lib.elSeverity t')
    {tv tv' n n' m m' : ℤ} {it it' : List Str}
    (h : readNumber stol ((q ++ t :: post).drop 5) = .ok (m, it))
    (h' : readNumber stol ((q ++ t' :: post).drop 5) = .ok (m', it')) :
    ¬Alike (fieldsAt lib tv n (q ++ t :: post) m it)
      (fieldsAt lib tv' n' (q ++ t' :: post) m' it') := by
  intro halike
  have hne : t ≠ t' := fun heq => hlen (congrArg List.length heq)
  match q, hq with
  | [_, _], _ => exact hne (congrArg Fields.hostaddr halike)
  | [_, _, _], _ => exact hsev (congrArg Fields.sev halike)
  | [_, _, _, _], _ => exact hne (congrArg Fields.category halike)
  | [_, _, _, _, _], _ => exact hne (congrArg Fields.application halike)
  | _ :: _ :: _ :: _ :: _ :: g :: r, _ =>
    simp only [List.cons_append, List.drop_succ_cons, List.drop_zero] at h h'
    have hsplit : ∃ u, 1 ≤ u.length ∧ it = u ++ t :: post ∧ it' = u ++ t' :: post := by
      cases r with
      | nil =>
        simp only [List.nil_append, readNumber_cons, ht, ht', Except.ok.injEq,
          Prod.mk.injEq] at h h'
        exact ⟨[g], le_rfl, h.2.symm, h'.2.symm⟩
      | cons c r =>
        obtain ⟨u, hu, hit, hothers⟩ := readNumber_split stol (q := g :: c :: r) (by simp) h
        have heq := (hothers t').symm.trans h'
        simp only [Except.ok.injEq, Prod.mk.injEq] at heq
        exact ⟨u, by simp only [List.length_cons] at hu; omega, hit, heq.2.symm⟩
    obtain ⟨u, hu, rfl, rfl⟩ := hsplit
    match u, hu with
    | [_], _ => exact hne (congrArg Fields.eventID halike)
    | [_, _], _ => exact hne (congrArg Fields.module halike)
    | [_, _, _], _ => exact hne (congrArg Fields.file halike)
    | [_, _, _, _], _ => exact hne (congrArg Fields.line halike)
    | _ :: _ :: _ :: _ :: _ :: u, _ =>
      exact intercalate_ne hlen post u (congrArg Fields.message halike)

/-- Where the timestamp has two separators or more, the host name is read as another field. -/
theorem not_hostIndependent (hlib : RejectsNumbers lib)
    (hdate : Dated lib (mf.timestamp e.timestamp)) (hc : Clean mf e s file)
    (htwo : 2 ≤ bars mf e) (hh : '|' ∉ h) (hh' : '|' ∉ h')
    (ht : stol h = .error .invalidArgument) (ht' : stol h' = .error .invalidArgument)
    (hlen : h.length ≠ h'.length) (hsev : lib.elSeverity h ≠ lib.elSeverity h') :
    ¬HostIndependent lib mf e s h h' := by
  rintro ⟨f, f', hf, hf', halike⟩
  obtain ⟨tv, hf⟩ := hf.fields hlib hdate (hc.host hh)
  obtain ⟨tv', hf'⟩ := hf'.fields hlib hdate (hc.host hh')
  have hafter : ∀ h, afterDate mf e { s with hostname := h } file =
      ((tokenize (mf.timestamp e.timestamp ++ ['|'])).tail ++ [number (s.seqNum + 1)]) ++
        h :: (header mf e s file ++ tokenize (UdpSender.fillUsrMsg e)).drop 2 := by
    intro h
    simp [afterDate, header]
  rw [hafter] at hf hf'
  have hlong : 3 ≤ ((tokenize (mf.timestamp e.timestamp ++ ['|'])).tail ++
      [number (s.seqNum + 1)]).length := by
    rw [List.length_append, length_pieces, List.length_singleton]
    omega
  obtain ⟨n, it₁, m, it₂, hn, hm, rfl⟩ := (readFields_ok lib).1 hf
  obtain ⟨n', it₁', m', it₂', hn', hm', rfl⟩ := (readFields_ok lib).1 hf'
  obtain ⟨u, hu, rfl, hothers⟩ := readNumber_split stoi (by omega) hn
  have heq := (hothers h').symm.trans hn'
  simp only [Except.ok.injEq, Prod.mk.injEq] at heq
  obtain ⟨-, rfl⟩ := heq
  exact apart (by omega) ht ht' hlen hsev hm hm' halike

/-- With one separator in the timestamp the host name does not matter; with none it does, unless no
host name is a number, or both are the same; with several it is read as another field. Where it does
not matter, the messages store the same. -/
theorem host_independent_iff (hlib : RejectsNumbers lib)
    (hdate : Dated lib (mf.timestamp e.timestamp)) (hc : Clean mf e s file)
    (hseq : 0 ≤ s.seqNum ∧ s.seqNum + 1 < 2 ^ 31)
    (hsev : lib.elSeverity "INFO".toList ≠ lib.elSeverity "ERROR".toList) :
    (bars mf e = 1 → ∀ h h' : Str, '|' ∉ h → '|' ∉ h' → HostIndependent lib mf e s h h') ∧
    (bars mf e = 0 → ∀ h h' : Str, '|' ∉ h → '|' ∉ h' → (HostIndependent lib mf e s h h' ↔
      (stoi h = .error .invalidArgument ∧ stoi h' = .error .invalidArgument) ∨
      ∃ v, stoi h = .ok v ∧ stoi h' = .ok v ∧ stol mf.iteration ≠ .error .outOfRange)) ∧
    (2 ≤ bars mf e → ¬∀ h h' : Str, '|' ∉ h → '|' ∉ h' → HostIndependent lib mf e s h h') ∧
    ∀ h h' : Str, HostIndependent lib mf e s h h' →
      ∃ m m', ReadsMsg lib mf e { s with hostname := h } m ∧
        ReadsMsg lib mf e { s with hostname := h' } m' ∧ StoredAlike m m' := by
  refine ⟨fun hone h h' hh hh' => ?_, fun hzero h h' hh hh' =>
    hostIndependent_zero hlib hdate hc hzero hh hh', fun htwo hall => ?_,
    fun h h' hi => hi.stored⟩
  · exact host_recognised hlib hdate hc hh hh' (readNumber_one hone hseq)
      (readNumber_one hone hseq)
  · have hbar : '|' ∉ "INFO".toList ∧ '|' ∉ "ERROR".toList := by decide
    have hletters : stol "INFO".toList = .error .invalidArgument ∧
        stol "ERROR".toList = .error .invalidArgument := by decide
    exact not_hostIndependent hlib hdate hc htwo hbar.1 hbar.2 hletters.1 hletters.2 (by decide)
      hsev (hall _ _ hbar.1 hbar.2)

theorem host_independent_first : HostIndependent secondLib (secondMf ['|']) (infoObj [])
    (sender []) "node".toList "10.0.0.1".toList :=
  (host_independent_iff secondLib_rejectsNumbers (second_dated ['|'] [])
    (sender_clean ['|'] [] _ (by decide)) (by decide) (by decide)).1 (by decide) _ _ (by decide)
    (by decide)

/-- A host that goes by its address sends other fields than one that goes by its name. -/
theorem host_dependent : ¬HostIndependent secondLib (secondMf []) (infoObj []) (sender [])
    "node".toList "10.0.0.1".toList := by
  rw [hostIndependent_zero secondLib_rejectsNumbers (second_dated [] [])
    (sender_clean [] [] _ (by decide)) (by decide) (by decide) (by decide)]
  rintro (⟨-, h⟩ | ⟨v, h, -⟩)
  · exact absurd h (by decide)
  · have hnode : stoi "node".toList = .error .invalidArgument := by decide
    rw [hnode] at h
    cases h

end UdpReceiver

end MfExtensions
