import MfExtensions.Condition
import MfExtensions.Lib.Joined
import MfExtensions.MsgSource
import MfExtensions.Proofs.HitmapRun
import MfExtensions.Proofs.Stored

/-!
# The names of sources

The source of a message is the application with the number of its process after it, so a source list
goes by the application only if it does not tell apart names of one stem, and messages of one
application come to one source index only if they are of one process (`sources_agree_iff`).
-/

namespace MfExtensions

open Exec Machine

/-! ## The text for an application -/

/-- An application and its process; a name with a NUL ends there. -/
def withPid (application : Str) (pid : ℤ) : Str :=
  if Char.ofNat 0 ∈ application then cStr application
  else application ++ " (".toList ++ number pid ++ ")".toList

theorem cStr_append {s : Str} (h : Char.ofNat 0 ∈ s) (t : Str) : cStr (s ++ t) = cStr s := by
  obtain ⟨a, b, rfl, ha⟩ := List.eq_append_cons_of_mem h
  rw [cStr, cStr, List.append_assoc, List.cons_append, Joined.takeWhile_of_notMem ha,
    Joined.takeWhile_of_notMem ha]

theorem number_inj {m n : ℤ} (h : number m = number n) : m = n := by
  have hsign : ∀ {m n : ℤ}, m < 0 → 0 ≤ n → number m ≠ number n := by
    intro m n hm hn heq
    have hminus : '-' ∈ number n := by
      rw [← heq, UdpReceiver.number_neg hm]
      exact List.mem_cons_self
    exact absurd (UdpReceiver.isDigit_of_mem_number hn hminus) (by decide)
  rcases lt_or_ge m 0 with hm | hm <;> rcases lt_or_ge n 0 with hn | hn
  · rw [UdpReceiver.number_neg hm, UdpReceiver.number_neg hn] at h
    have heq := congrArg decimal (List.cons.inj h).2
    rw [UdpReceiver.decimal_number (by omega), UdpReceiver.decimal_number (by omega)] at heq
    omega
  · exact absurd h (hsign hm hn)
  · exact absurd h.symm (hsign hn hm)
  · rw [← UdpReceiver.decimal_number hm, h, UdpReceiver.decimal_number hn]

theorem app_mk' (hostname category application : Str) (pid time : ℤ) :
    (QtMfMsg.mk' hostname category application pid time).app = withPid application pid := by
  simp only [QtMfMsg.mk', withPid]
  split_ifs with hnul
  · rw [List.append_assoc, List.append_assoc, cStr_append hnul]
  · refine UdpReceiver.cStr_eq_self ?_
    have hnumber := notMem_number (c := Char.ofNat 0) (by decide) (by decide) pid
    simp [hnul, hnumber]

/-- What stands after the last opening parenthesis is the process. -/
theorem withPid_inj {a a' : Str} {pid pid' : ℤ} (ha : Char.ofNat 0 ∉ a) (ha' : Char.ofNat 0 ∉ a') :
    withPid a pid = withPid a' pid' ↔ a = a' ∧ pid = pid' := by
  rw [withPid, withPid, if_neg ha, if_neg ha']
  constructor
  · intro h
    have hparen : ∀ n : ℤ, '(' ∉ (number n).reverse := fun n => by
      simpa using notMem_number (by decide) (by decide) n
    have hrev : (number pid).reverse ++ '(' :: ' ' :: a.reverse =
        (number pid').reverse ++ '(' :: ' ' :: a'.reverse := by
      simpa using congrArg List.reverse (List.append_cancel_right h)
    obtain ⟨hnumber, hrest⟩ := Joined.append_cons_inj (hparen pid) (hparen pid') hrev
    exact ⟨List.reverse_injective (List.cons.inj hrest).2,
      number_inj (List.reverse_injective hnumber)⟩
  · rintro ⟨rfl, rfl⟩
    rfl

/-- Two messages of one application are of one process, and no name that has a NUL is cut to what
another is shown as. -/
def ToldApart (a : Str) (pid : ℤ) (a' : Str) (pid' : ℤ) : Prop :=
  (a = a' → Char.ofNat 0 ∈ a ∨ pid = pid') ∧
    (a ≠ a' → Char.ofNat 0 ∈ a ∨ Char.ofNat 0 ∈ a' → withPid a pid ≠ withPid a' pid')

theorem withPid_eq_iff (a : Str) (pid : ℤ) (a' : Str) (pid' : ℤ) :
    (withPid a pid = withPid a' pid' ↔ a = a') ↔ ToldApart a pid a' pid' := by
  constructor
  · intro h
    refine ⟨fun heq => ?_, fun hne _ heq => hne (h.1 heq)⟩
    by_cases hnul : Char.ofNat 0 ∈ a
    · exact .inl hnul
    · exact .inr ((withPid_inj hnul (heq ▸ hnul)).1 (h.2 heq)).2
  · rintro ⟨hsame, hother⟩
    constructor
    · intro heq
      by_contra hne
      by_cases hnul : Char.ofNat 0 ∈ a ∨ Char.ofNat 0 ∈ a'
      · exact hother hne hnul heq
      · rw [not_or] at hnul
        exact hne ((withPid_inj hnul.1 hnul.2).1 heq).1
    · rintro rfl
      rcases hsame rfl with hnul | rfl
      · rw [withPid, withPid, if_pos hnul, if_pos hnul]
      · rfl

/-! ## The stem of a name -/

/-- The number that `number` writes so. -/
def pidOf : Str → ℤ
  | '-' :: ds => -decimal ds
  | ds => decimal ds

/-- The number fits a `pid_t`. -/
def IsPid (pid : ℤ) : Prop := -2 ^ 31 ≤ pid ∧ pid < 2 ^ 31

/-- A `pid_t` as `to_string` writes it. -/
def isPid (s : Str) : Bool := number (pidOf s) = s && -2 ^ 31 ≤ pidOf s && pidOf s < 2 ^ 31

/-- The name before a process at the end. -/
def cutPid (s : Str) : Option Str :=
  match s.reverse with
  | ')' :: r =>
    match r.dropWhile (· ≠ '(') with
    | '(' :: ' ' :: name =>
      if isPid (r.takeWhile (· ≠ '(')).reverse then some name.reverse else none
    | _ => none
  | _ => none

def cutPids : ℕ → Str → Str
  | 0, s => s
  | n + 1, s =>
    match cutPid s with
    | none => s
    | some a => cutPids n a

/-- The name up to a NUL, without the processes at its end. -/
def stem (s : Str) : Str := cutPids s.length (cStr s)

example : stem "dcm-01 (5) (-6)".toList = "dcm-01".toList := by decide +kernel

theorem pidOf_number (n : ℤ) : pidOf (number n) = n := by
  rcases lt_or_ge n 0 with hn | hn
  · rw [UdpReceiver.number_neg hn, pidOf, UdpReceiver.decimal_number (by omega)]
    omega
  · have hminus : ∀ ds, number n ≠ '-' :: ds := fun ds h => by
      have hmem : '-' ∈ number n := h ▸ List.mem_cons_self
      exact absurd (UdpReceiver.isDigit_of_mem_number hn hmem) (by decide)
    rw [pidOf]
    · exact UdpReceiver.decimal_number hn
    · exact hminus

theorem isPid_iff {s : Str} : isPid s = true ↔ ∃ pid, IsPid pid ∧ s = number pid := by
  simp only [isPid, Bool.and_eq_true, decide_eq_true_eq]
  constructor
  · rintro ⟨⟨hs, hlow⟩, hhigh⟩
    exact ⟨pidOf s, ⟨hlow, hhigh⟩, hs.symm⟩
  · rintro ⟨pid, ⟨hlow, hhigh⟩, rfl⟩
    rw [pidOf_number]
    exact ⟨⟨rfl, hlow⟩, hhigh⟩

theorem cutPid_append (a : Str) {pid : ℤ} (h : IsPid pid) :
    cutPid (a ++ " (".toList ++ number pid ++ ")".toList) = some a := by
  have hrev : (a ++ " (".toList ++ number pid ++ ")".toList).reverse =
      ')' :: ((number pid).reverse ++ '(' :: ' ' :: a.reverse) := by simp
  have hparen : '(' ∉ (number pid).reverse := by
    simpa using notMem_number (by decide) (by decide) pid
  have hpid : isPid (number pid) = true := isPid_iff.2 ⟨pid, h, rfl⟩
  rw [cutPid, hrev]
  simp only [Joined.dropWhile_of_notMem hparen, Joined.takeWhile_of_notMem hparen,
    List.reverse_reverse, hpid, if_true]

theorem cutPid_eq_some {s a : Str} (h : cutPid s = some a) : ∃ pid, IsPid pid ∧
    s = a ++ " (".toList ++ number pid ++ ")".toList := by
  unfold cutPid at h
  split at h
  · rename_i r hr
    split at h
    · rename_i name hname
      split_ifs at h with hpid
      obtain ⟨pid, hpid, hnumber⟩ := isPid_iff.1 hpid
      obtain rfl := Option.some_inj.1 h
      refine ⟨pid, hpid, ?_⟩
      have hsplit := List.takeWhile_append_dropWhile (p := fun c => decide (c ≠ '(')) (l := r)
      rw [hname, ← List.reverse_reverse (r.takeWhile _), hnumber] at hsplit
      rw [← List.reverse_reverse s, hr, ← hsplit]
      simp
    · cases h
  · cases h

theorem length_of_cutPid {s a : Str} (h : cutPid s = some a) : a.length < s.length := by
  obtain ⟨pid, -, rfl⟩ := cutPid_eq_some h
  simp only [List.length_append]
  have : (")".toList).length = 1 := rfl
  omega

/-- More rounds than there are characters change nothing. -/
theorem cutPids_eq : ∀ {n m : ℕ} {s : Str}, s.length ≤ n → s.length ≤ m →
    cutPids n s = cutPids m s
  | 0, 0, _, _, _ => rfl
  | 0, m + 1, s, hn, _ => by
    obtain rfl := List.eq_nil_of_length_eq_zero (Nat.le_zero.1 hn)
    rfl
  | n + 1, 0, s, _, hm => by
    obtain rfl := List.eq_nil_of_length_eq_zero (Nat.le_zero.1 hm)
    rfl
  | n + 1, m + 1, s, hn, hm => by
    rw [cutPids, cutPids]
    cases h : cutPid s with
    | none => rfl
    | some a =>
      have hlen := length_of_cutPid h
      exact cutPids_eq (by omega) (by omega)

theorem withPid_of_notMem {a : Str} (h : Char.ofNat 0 ∉ a) (pid : ℤ) :
    withPid a pid = a ++ " (".toList ++ number pid ++ ")".toList := if_neg h

theorem withPid_of_mem {a : Str} (h : Char.ofNat 0 ∈ a) (pid : ℤ) : withPid a pid = cStr a :=
  if_pos h

theorem nul_notMem_cStr (s : Str) : Char.ofNat 0 ∉ cStr s := fun h => by
  simpa using List.mem_takeWhile_imp h

theorem nul_notMem_withPid (a : Str) (pid : ℤ) : Char.ofNat 0 ∉ withPid a pid := by
  by_cases h : Char.ofNat 0 ∈ a
  · rw [withPid_of_mem h]
    exact nul_notMem_cStr a
  · rw [withPid_of_notMem h]
    have hnumber := (verbatim_number pid).nul
    simp [h, hnumber]

theorem length_cStr_le (s : Str) : (cStr s).length ≤ s.length :=
  (List.takeWhile_prefix _).length_le

/-- A process put behind a name does not change its stem. -/
theorem stem_withPid (a : Str) {pid : ℤ} (h : IsPid pid) : stem (withPid a pid) = stem a := by
  rw [stem, cStr_iff.2 (nul_notMem_withPid a pid), stem]
  by_cases hnul : Char.ofNat 0 ∈ a
  · rw [withPid_of_mem hnul]
    exact cutPids_eq le_rfl (length_cStr_le a)
  · rw [cStr_iff.2 hnul, withPid_of_notMem hnul]
    have hcut := cutPid_append a h
    have hlen := length_of_cutPid hcut
    obtain ⟨n, hn⟩ := Nat.exists_eq_add_of_lt hlen
    rw [hn, cutPids, hcut]
    exact cutPids_eq (by omega) le_rfl

/-- What does not change with a process behind the name depends on the stem. -/
theorem iff_stem {Q : Str → Prop} (h : ∀ a pid, IsPid pid → (Q (withPid a pid) ↔ Q a)) (a : Str) :
    Q a ↔ Q (stem a) := by
  have hzero : IsPid 0 := ⟨by decide, by decide⟩
  have hcuts : ∀ (n : ℕ) {s : Str}, Char.ofNat 0 ∉ s → (Q s ↔ Q (cutPids n s)) := by
    intro n
    induction n with
    | zero => exact fun _ => Iff.rfl
    | succ n ih =>
      intro s hs
      rw [cutPids]
      cases hcut : cutPid s with
      | none => exact Iff.rfl
      | some b =>
        obtain ⟨pid, hpid, hsplit⟩ := cutPid_eq_some hcut
        have hb : Char.ofNat 0 ∉ b := fun hmem => hs (by simp [hsplit, hmem])
        rw [← withPid_of_notMem hb] at hsplit
        rw [hsplit]
        exact (h b pid hpid).trans (ih hb)
  have hcStr : Q a ↔ Q (cStr a) := by
    by_cases hnul : Char.ofNat 0 ∈ a
    · rw [← withPid_of_mem hnul 0]
      exact (h a 0 hzero).symm
    · rw [cStr_iff.2 hnul]
  exact hcStr.trans (hcuts _ (nul_notMem_cStr a))

/-! ## Source lists and source indices -/

variable {k : CondConfig}

/-- The source list has a regular expression that matches the whole of `src`. -/
def Listed (k : CondConfig) (src : Str) : Prop :=
  ∃ e ∈ k.eSrcs, (e.regexMatch (String.ofList src)).isSome = true

/-- A message constructed with the application and the process; what is set in it later does not
change what it is shown as. -/
def MadeFor (application : Str) (pid : ℤ) (msg : QtMfMsg) : Prop :=
  ∃ hostname category time, msg.app = (QtMfMsg.mk' hostname category application pid time).app

theorem MadeFor.source {application : Str} {pid : ℤ} {msg : QtMfMsg}
    (h : MadeFor application pid msg) :
    getSourceFromMsg msg = String.ofList (withPid application pid) := by
  obtain ⟨hostname, category, time, happ⟩ := h
  rw [getSourceFromMsg, happ, app_mk']

theorem value?_matchSrcs (hany : k.anySrc = false) (src : String) (c : Condition) :
    value? (Condition.matchSrcs k src) c = some true ↔
      ∃ e ∈ k.eSrcs, (e.regexMatch src).isSome = true := by
  rw [Condition.matchSrcs, Condition.matchAny, hany, if_neg (by decide)]
  rcases h : k.eSrcs.findSome? fun e => e.regexMatch src with _ | w
  · rw [h]
    refine iff_of_false (by simp [value?]) fun ⟨e, he, hmatch⟩ => ?_
    rw [List.findSome?_eq_none_iff.1 h e he] at hmatch
    simp at hmatch
  · rw [h]
    obtain ⟨e, he, hw⟩ := List.exists_of_findSome?_eq_some h
    exact iff_of_true rfl ⟨e, he, by rw [hw]; rfl⟩

theorem HitmapRun.same_source (hper : k.perSource = true) {r : HitmapRun}
    (h : Machine.Run (HitmapRun.step k) HitmapRun.Allowed {} r) {p q : Captured}
    (hp : p ∈ r.captured) (hq : q ∈ r.captured) : p.cell.1 = q.cell.1 ↔ p.src = q.src := by
  have hi := HitmapRun.indexed h
  have hps := (hi.cells p hp).1
  have hqs := (hi.cells q hq).1
  simp only [srcName, hper, if_true] at hps hqs
  exact hi.fits.src.idx_eq_iff hps hqs

/-- A message passes the source list just if its application is listed. -/
def GoesByApplication (k : CondConfig) : Prop :=
  ∀ application pid msg, IsPid pid → MadeFor application pid msg → ∀ c,
    (value? (Condition.matchSrcs k (getSourceFromMsg msg)) c = some true ↔ Listed k application)

theorem goesByApplication_iff (hany : k.anySrc = false) : GoesByApplication k ↔
    ∀ a pid, IsPid pid → (Listed k (withPid a pid) ↔ Listed k a) := by
  have hpasses : ∀ {a pid msg}, MadeFor a pid msg → ∀ c,
      (value? (Condition.matchSrcs k (getSourceFromMsg msg)) c = some true ↔
        Listed k (withPid a pid)) := by
    intro a pid msg hmsg c
    rw [value?_matchSrcs hany, hmsg.source, ← Listed]
  constructor
  · intro h a pid hpid
    have hmsg : MadeFor a pid (QtMfMsg.mk' [] [] a pid 0) := ⟨[], [], 0, rfl⟩
    exact (hpasses hmsg {}).symm.trans (h a pid _ hpid hmsg {})
  · intro h a pid msg hpid hmsg c
    exact (hpasses hmsg c).trans (h a pid hpid)

/-- A list that goes by the application lists names as long as one likes, if any. -/
theorem exists_longer (h : ∀ a pid, IsPid pid → (Listed k (withPid a pid) ↔ Listed k a)) {a : Str}
    (ha : Listed k a) : ∀ n, ∃ b, Listed k b ∧ n ≤ b.length ∧ Char.ofNat 0 ∉ b
  | 0 => by
    have hzero : IsPid 0 := ⟨by decide, by decide⟩
    exact ⟨_, (h a 0 hzero).2 ha, Nat.zero_le _, nul_notMem_withPid a 0⟩
  | n + 1 => by
    have hzero : IsPid 0 := ⟨by decide, by decide⟩
    obtain ⟨b, hb, hlen, hnul⟩ := exists_longer h ha n
    refine ⟨_, (h b 0 hzero).2 hb, ?_, nul_notMem_withPid b 0⟩
    have hcut := cutPid_append b hzero
    rw [← withPid_of_notMem hnul] at hcut
    have := length_of_cutPid hcut
    omega

/-- A source list goes by the application just if names of one stem are listed alike, which a list
of names up to some length does only if it lists none; and messages share a source index just if
they are of one application, where the applications and processes are told apart. -/
theorem sources_agree_iff (k : CondConfig) (hany : k.anySrc = false) :
    (GoesByApplication k ↔ ∀ name, Listed k name ↔ Listed k (stem name)) ∧
    (∀ n, (∀ name, Listed k name → name.length ≤ n) →
      (GoesByApplication k ↔ ∀ name, ¬Listed k name)) ∧
    (k.perSource = true → ∀ r, Machine.Run (HitmapRun.step k) HitmapRun.Allowed {} r →
      ∀ p ∈ r.captured, ∀ q ∈ r.captured, ∀ a pid a' pid' msg msg', MadeFor a pid msg →
        MadeFor a' pid' msg' → p.src = getSourceFromMsg msg → q.src = getSourceFromMsg msg' →
          ((p.cell.1 = q.cell.1 ↔ a = a') ↔ ToldApart a pid a' pid')) := by
  rw [goesByApplication_iff hany]
  refine ⟨⟨fun h => iff_stem h, fun h a pid hpid => ?_⟩, fun n hn => ⟨fun h name hname => ?_,
    fun h a pid hpid => iff_of_false (h _) (h _)⟩,
    fun hper r hr p hp q hq a pid a' pid' msg msg' hmsg hmsg' hps hqs => ?_⟩
  · rw [h (withPid a pid), stem_withPid a hpid, ← h a]
  · obtain ⟨b, hb, hlen, -⟩ := exists_longer h hname (n + 1)
    exact absurd (hn b hb) (by omega)
  · rw [HitmapRun.same_source hper hr hp hq, hps, hqs, hmsg.source, hmsg'.source, String.ofList_inj,
      withPid_eq_iff]

/-! ## The application `dcm-01` -/

/-- A condition on the messages of `dcm-01`, which tells sources apart. -/
def onDcm : CondConfig where
  name := "on dcm"
  severity := .debug
  anySrc := false
  eSrcs := [.literal "dcm-01"]
  matchAny := true
  e := .literal ""
  perSource := true

theorem listed_onDcm {src : Str} : Listed onDcm src ↔ String.ofList src = "dcm-01" := by
  rw [Listed, onDcm]
  simp only [List.mem_singleton, exists_eq_left, Regex.literal, Option.isSome_ite]

/-- A list of one name does not go by the application. -/
theorem sources_agree_first : ¬GoesByApplication onDcm := by
  have hshort : ∀ name, Listed onDcm name → name.length ≤ 6 := by
    intro name hname
    rw [← String.toList_ofList (l := name), listed_onDcm.1 hname]
    decide
  rw [(sources_agree_iff onDcm rfl).2.1 6 hshort]
  exact fun h => h "dcm-01".toList (listed_onDcm.2 rfl)

/-- Its messages do not pass the list, and those of two processes are two sources. -/
theorem dcm_not_listed : Listed onDcm "dcm-01".toList ∧
    value? (Condition.matchSrcs onDcm (getSourceFromMsg
      (QtMfMsg.mk' [] [] "dcm-01".toList 5 0))) {} = some false ∧
    getSourceFromMsg (QtMfMsg.mk' [] [] "dcm-01".toList 5 0) ≠
      getSourceFromMsg (QtMfMsg.mk' [] [] "dcm-01".toList 6 0) :=
  ⟨listed_onDcm.2 rfl, by decide, by decide⟩

end MfExtensions
