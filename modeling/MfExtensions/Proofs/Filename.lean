import MfExtensions.Lib.Joined
import MfExtensions.Ots
import MfExtensions.Proofs.UdpPacket

/-!
# Where a file name is cut

With `filename_delimit` the start of a file name is cut off: up to the last occurrence of one
character, or up to the first `/` at or behind the end of the first occurrence of a longer text. In
the second case the scan goes one past the NUL if there is no such `/`. `trimmed_inside_iff` says
when what the two destinations write for the file is an end of its name.
-/

namespace MfExtensions

namespace UdpSender

/-- `d` stands at the position `i` of `s` and not before. -/
def FirstAt (d s : Str) (i : ℕ) : Prop := d <+: s.drop i ∧ ∀ j < i, ¬d <+: s.drop j

/-- What is left of the name `s` behind the place where it is cut. -/
inductive Left (delim s : Str) : Str → Prop
  | last {c : Char} {a rest : Str} (hd : delim = [c]) (hs : s = a ++ c :: rest) (hc : c ∉ rest) :
      Left delim s rest
  | slash {i : ℕ} {a rest : Str} (hd : 2 ≤ delim.length) (hi : FirstAt (cStr delim) s i)
      (hs : s.drop (i + (delim.length - 1)) = a ++ '/' :: rest) (ha : '/' ∉ a) : Left delim s rest

/-- What stands in a string behind its first NUL. -/
def behindNul (s : Str) : Str := (s.dropWhile (· ≠ Char.ofNat 0)).tail

/-- The delimiter is not a NUL; where a longer one occurs a `/` follows; and if there is a NUL in
the name, what is left of the part before it is also the end of the part behind it. -/
structure TrimsInside (delim name : Str) : Prop where
  notNul : delim ≠ [Char.ofNat 0]
  slash : 2 ≤ delim.length → ∀ i, FirstAt (cStr delim) (cStr name) i →
    '/' ∈ (cStr name).drop (i + (delim.length - 1))
  nul : Char.ofNat 0 ∈ name → ∀ rest, Left delim (cStr name) rest → rest <:+ behindNul name

variable {c : Char} {s d a rest name delim : Str} {i j : ℕ}

/-! ## Searching -/

theorem afterLast_eq (hc : c ∉ rest) : afterLast c (a ++ c :: rest) = some rest := by
  unfold afterLast
  have hmem : (a ++ c :: rest).contains c = true := by simp
  have hrev : (a ++ c :: rest).reverse = rest.reverse ++ c :: a.reverse := by simp
  rw [if_pos hmem, hrev, Joined.takeWhile_of_notMem (by simpa using hc), List.reverse_reverse]

theorem exists_last (hc : c ∈ s) : ∃ a rest, s = a ++ c :: rest ∧ c ∉ rest := by
  obtain ⟨a, rest, hs, hrest⟩ := List.eq_append_cons_of_mem (List.mem_reverse.2 hc)
  refine ⟨rest.reverse, a.reverse, ?_, by simpa using hrest⟩
  rw [← List.reverse_reverse s, hs]
  simp

theorem FirstAt.unique (hi : FirstAt d s i) (hj : FirstAt d s j) : i = j := by
  rcases lt_trichotomy i j with h | h | h
  · exact absurd hi.1 (hj.2 i h)
  · exact h
  · exact absurd hj.1 (hi.2 j h)

theorem strstr_cons (x : Char) (s d : Str) :
    strstr (x :: s) d = if d <+: x :: s then some (x :: s) else strstr s d := by
  unfold strstr
  rw [List.tails, List.find?_cons]
  by_cases h : d <+: x :: s
  · rw [if_pos h, List.isPrefixOf_iff_prefix.2 h]
  · have hp : d.isPrefixOf (x :: s) = false := by
      rw [← Bool.not_eq_true, List.isPrefixOf_iff_prefix]
      exact h
    rw [if_neg h, hp]

/-- `strstr` finds the first occurrence. -/
theorem strstr_cases (s d : Str) :
    (strstr s d = none ∧ ∀ i, ¬d <+: s.drop i) ∨
      ∃ i, FirstAt d s i ∧ strstr s d = some (s.drop i) := by
  induction s with
  | nil =>
    cases d with
    | nil => exact .inr ⟨0, ⟨List.nil_prefix, fun j hj => absurd hj (Nat.not_lt_zero j)⟩, rfl⟩
    | cons x d => exact .inl ⟨rfl, fun i => by simp⟩
  | cons x s ih =>
    rw [strstr_cons]
    by_cases h : d <+: x :: s
    · rw [if_pos h]
      exact .inr ⟨0, ⟨h, fun j hj => absurd hj (Nat.not_lt_zero j)⟩, rfl⟩
    · rw [if_neg h]
      rcases ih with ⟨hnone, hno⟩ | ⟨i, ⟨hi, hfirst⟩, hsome⟩
      · refine .inl ⟨hnone, fun i => ?_⟩
        cases i with
        | zero => exact h
        | succ i => exact hno i
      · refine .inr ⟨i + 1, ⟨hi, fun j hj => ?_⟩, hsome⟩
        cases j with
        | zero => exact h
        | succ j => exact hfirst j (by omega)

/-! ## Cutting -/

theorem Left.suffix (h : Left delim s rest) : rest <:+ s := by
  rcases h with ⟨-, rfl, -⟩ | ⟨-, -, hs, -⟩
  · exact (List.suffix_cons _ _).trans (List.suffix_append _ _)
  · have hsuf : rest <:+ s.drop _ :=
      hs ▸ (List.suffix_cons _ _).trans (List.suffix_append _ _)
    exact hsuf.trans (List.drop_suffix _ s)

/-- What a longer delimiter makes of a name it occurs in. -/
theorem trimFilename_slash (hd : 2 ≤ delim.length) (hi : FirstAt (cStr delim) (cStr name) i) :
    trimFilename delim name =
      (((cStr name).drop (i + (delim.length - 1))).dropWhile (· ≠ '/')).tail? := by
  rcases strstr_cases (cStr name) (cStr delim) with ⟨-, hno⟩ | ⟨i', hi', hsome⟩
  · exact absurd hi.1 (hno i)
  · obtain rfl := hi.unique hi'
    match delim, hd with
    | _ :: _ :: _, _ =>
      unfold trimFilename
      simp only [hsome, List.drop_drop]
      cases ((cStr name).drop _).dropWhile _ <;> rfl

/-- What is left is what is written. -/
theorem Left.trim (h : Left delim (cStr name) rest) (hnul : delim ≠ [Char.ofNat 0]) :
    trimFilename delim name = some rest := by
  rcases h with ⟨rfl, hs, hc⟩ | ⟨hd, hi, hs, ha⟩
  · unfold trimFilename
    simp only []
    rw [if_neg fun h => hnul (congrArg (fun c => [c]) h), hs, afterLast_eq hc]
    rfl
  · rw [trimFilename_slash hd hi, hs, Joined.dropWhile_of_notMem ha, List.tail?_cons]

theorem trimFilename_not_mem (hnul : c ≠ Char.ofNat 0) (hc : c ∉ cStr name) :
    trimFilename [c] name = some name := by
  have hnone : afterLast c (cStr name) = none := by
    unfold afterLast
    rw [if_neg (by simpa using hc)]
  unfold trimFilename
  simp only []
  rw [if_neg hnul, hnone]
  rfl

theorem trimFilename_not_found (hd : 2 ≤ delim.length)
    (hnone : strstr (cStr name) (cStr delim) = none) : trimFilename delim name = some name := by
  match delim, hd with
  | _ :: _ :: _, _ =>
    unfold trimFilename
    simp only [hnone]

/-- Without a `/` the scan goes on to the NUL and one past it. -/
theorem trimFilename_past (hd : 2 ≤ delim.length) (hi : FirstAt (cStr delim) (cStr name) i)
    (hslash : '/' ∉ (cStr name).drop (i + (delim.length - 1))) :
    trimFilename delim name = none := by
  have hend : ((cStr name).drop (i + (delim.length - 1))).dropWhile (· ≠ '/') = [] := by
    rw [List.dropWhile_eq_nil_iff]
    intro c hc
    exact decide_eq_true fun h => hslash (h ▸ hc)
  rw [trimFilename_slash hd hi, hend, List.tail?_nil]

theorem not_left_of_lt (hd : delim.length < 2) (hc : ∀ c, delim = [c] → c ∉ s) (rest : Str) :
    ¬Left delim s rest := by
  rintro (⟨rfl, rfl, -⟩ | ⟨hd', -, -, -⟩)
  · exact hc _ rfl (List.mem_append_right _ List.mem_cons_self)
  · omega

theorem not_left_of_ge (hd : 2 ≤ delim.length) (hno : ∀ i, ¬cStr delim <+: s.drop i) (rest : Str) :
    ¬Left delim s rest := by
  rintro (⟨rfl, -, -⟩ | ⟨-, hi, -, -⟩)
  · exact absurd hd (by simp)
  · exact hno _ hi.1

/-- A name is left alone, cut, or passed. -/
theorem trimFilename_cases (delim name : Str) :
    (trimFilename delim name = some name ∧ delim ≠ [Char.ofNat 0] ∧
      (∀ rest, ¬Left delim (cStr name) rest) ∧
      (2 ≤ delim.length → ∀ i, ¬FirstAt (cStr delim) (cStr name) i)) ∨
    (delim ≠ [Char.ofNat 0] ∧ ∃ rest, Left delim (cStr name) rest) ∨
    (trimFilename delim name = none ∧ ¬TrimsInside delim name) := by
  rcases Nat.lt_or_ge delim.length 2 with hshort | hlong
  · match delim, hshort with
    | [], hshort =>
      have hne : [] ≠ [Char.ofNat 0] := List.cons_ne_nil _ _ ∘ Eq.symm
      refine .inl ⟨rfl, hne, not_left_of_lt hshort ?_, fun hd => by omega⟩
      rintro c ⟨⟩
    | [c], hshort =>
      by_cases hnul : c = Char.ofNat 0
      · exact .inr (.inr ⟨if_pos hnul, fun h => h.notNul (by rw [hnul])⟩)
      · have hne : [c] ≠ [Char.ofNat 0] := fun h => hnul (List.singleton_inj.1 h)
        by_cases hc : c ∈ cStr name
        · obtain ⟨a, rest, hs, hrest⟩ := exists_last hc
          exact .inr (.inl ⟨hne, rest, .last rfl hs hrest⟩)
        · refine .inl ⟨trimFilename_not_mem hnul hc, hne, not_left_of_lt hshort ?_,
            fun hd => by omega⟩
          rintro c' hc'
          rwa [← List.singleton_inj.1 hc']
  · have hne : delim ≠ [Char.ofNat 0] := by
      rintro rfl
      exact absurd hlong (by simp)
    rcases strstr_cases (cStr name) (cStr delim) with ⟨hnone, hno⟩ | ⟨i, hi, -⟩
    · exact .inl ⟨trimFilename_not_found hlong hnone, hne, not_left_of_ge hlong hno,
        fun _ i hi => hno i hi.1⟩
    · by_cases hslash : '/' ∈ (cStr name).drop (i + (delim.length - 1))
      · obtain ⟨a, rest, hs, ha⟩ := List.eq_append_cons_of_mem hslash
        exact .inr (.inl ⟨hne, rest, .slash hlong hi hs ha⟩)
      · exact .inr (.inr ⟨trimFilename_past hlong hi hslash, fun h => hslash (h.slash hlong i hi)⟩)

theorem eq_append_behindNul (h : Char.ofNat 0 ∈ name) :
    name = cStr name ++ Char.ofNat 0 :: behindNul name := by
  obtain ⟨a, b, hname, ha⟩ := List.eq_append_cons_of_mem h
  unfold behindNul cStr
  rw [hname, Joined.takeWhile_of_notMem ha, Joined.dropWhile_of_notMem ha, List.tail_cons]

/-- An end of the part before the first NUL is an end of the name. -/
theorem suffix_iff (h : rest <:+ cStr name) :
    rest <:+ name ↔ (Char.ofNat 0 ∈ name → rest <:+ behindNul name) := by
  by_cases hnul : Char.ofNat 0 ∈ name
  · have hrest : Char.ofNat 0 ∉ rest := by
      intro hmem
      simpa using List.mem_takeWhile_imp (h.subset hmem)
    rw [imp_iff_right hnul]
    conv_lhs => rw [eq_append_behindNul hnul]
    exact Joined.suffix_append_cons_iff hrest
  · rw [UdpReceiver.cStr_eq_self hnul] at h
    exact iff_of_true h fun hmem => absurd hmem hnul

/-- The trimmed name is inside the name just if the condition holds. -/
theorem trimFilename_suffix_iff (delim name : Str) :
    (∃ file, trimFilename delim name = some file ∧ file <:+ name) ↔ TrimsInside delim name := by
  rcases trimFilename_cases delim name with ⟨htrim, hnul, hleft, hfirst⟩ | ⟨hnul, rest, hleft⟩ |
    ⟨htrim, hnot⟩
  · refine iff_of_true ⟨name, htrim, List.suffix_rfl⟩ ⟨hnul, ?_, ?_⟩
    · exact fun hd i hi => absurd hi (hfirst hd i)
    · exact fun _ rest hrest => absurd hrest (hleft rest)
  · have htrim := hleft.trim hnul
    constructor
    · rintro ⟨file, hfile, hsuf⟩
      obtain rfl := Option.some_inj.1 (hfile.symm.trans htrim)
      refine ⟨hnul, fun hd i hi => ?_, fun hmem rest' hrest' => ?_⟩
      · rcases hleft with ⟨rfl, -, -⟩ | ⟨-, hi', hs, -⟩
        · exact absurd hd (by simp)
        · rw [hi.unique hi', hs]
          exact List.mem_append_right _ List.mem_cons_self
      · have hsame : rest' = file := Option.some_inj.1 ((hrest'.trim hnul).symm.trans htrim)
        exact hsame ▸ (suffix_iff hleft.suffix).1 hsuf hmem
    · intro h
      exact ⟨rest, htrim, (suffix_iff hleft.suffix).2 fun hmem => h.nul hmem rest hleft⟩
  · refine iff_of_false ?_ hnot
    rintro ⟨file, hfile, -⟩
    rw [htrim] at hfile
    cases hfile

/-- The example in the description of `filename_delimit`. -/
example : trimFilename "/srcs/".toList "/x/srcs/y/z.cc".toList = some "y/z.cc".toList := by decide

/-! ## What the destinations write -/

variable (mf : MfLib) (e : ErrorObj) (u : UdpSender) (o : Elots)

/-- What `fillPrefix` writes before the file. -/
def beforeFile : Str :=
  mf.timestamp e.timestamp ++ '|' :: number (u.seqNum + 1) ++ '|' :: u.hostname ++
    '|' :: u.hostaddr ++ '|' :: mf.getName e.severity ++ '|' :: bang e.id ++ '|' :: bang u.app ++
    '|' :: number u.pid ++ '|' :: mf.iteration ++ '|' :: bang e.module ++ ['|']

/-- What it writes after it. -/
def afterFile : Str := '|' :: number e.lineNumber ++ ['|']

theorem fillPrefix_eq_some_iff {file : Str} :
    (∃ u', fillPrefix mf e u = some (beforeFile mf e u ++ file ++ afterFile e, u')) ↔
      trimFilename u.filenameDelimit e.filename = some file := by
  have hfill : fillPrefix mf e u = (trimFilename u.filenameDelimit e.filename).map fun file =>
      (beforeFile mf e u ++ file ++ afterFile e, { u with seqNum := u.seqNum + 1 }) := by
    unfold fillPrefix beforeFile afterFile
    rcases trimFilename u.filenameDelimit e.filename with _ | file
    · rfl
    · simp
  rw [hfill]
  constructor
  · rintro ⟨u', h⟩
    obtain ⟨file', hfile', heq⟩ := Option.map_eq_some_iff.1 h
    rw [hfile', List.append_cancel_left (List.append_cancel_right (congrArg Prod.fst heq))]
  · intro h
    exact ⟨_, by rw [h]; rfl⟩

/-- `%f` writes an end of the name whatever stands in memory behind it just if the code does not go
past the name. -/
theorem field_suffix_iff : (∀ past, Elots.field mf past e o 'f' <:+ e.filename) ↔
    ∃ file, trimFilename o.filenameDelimit e.filename = some file ∧ file <:+ e.filename := by
  have hfield (past : Str) : Elots.field mf past e o 'f' =
      (trimFilename o.filenameDelimit e.filename).getD past := rfl
  simp only [hfield]
  rcases trimFilename o.filenameDelimit e.filename with _ | file
  · refine iff_of_false (fun h => ?_) (by simp)
    have hlen := (h ('x' :: e.filename)).length_le
    rw [Option.getD_none, List.length_cons] at hlen
    omega
  · simp

/-- What `ELUDP` and `ELOTS` write for the file is an end of its name, and nothing behind the name
is read, just if the delimiter trims inside the name. -/
theorem trimmed_inside_iff :
    ((∃ file, file <:+ e.filename ∧
      ∃ u', fillPrefix mf e u = some (beforeFile mf e u ++ file ++ afterFile e, u')) ↔
        TrimsInside u.filenameDelimit e.filename) ∧
    ((∀ past, Elots.field mf past e o 'f' <:+ e.filename) ↔
      TrimsInside o.filenameDelimit e.filename) := by
  constructor
  · rw [← trimFilename_suffix_iff]
    simp only [fillPrefix_eq_some_iff, and_comm]
  · rw [field_suffix_iff, trimFilename_suffix_iff]

def plainMf : MfLib := ⟨fun _ => "now".toList, fun _ => "INFO".toList, "1".toList⟩

def mainMsg : ErrorObj :=
  { timestamp := 0, severity := .info, id := [], module := [], filename := "artdaq_main.cc".toList
    lineNumber := 1, items := [] }

def udpCut : UdpSender :=
  { seqNum := 0, pid := 7, hostname := [], hostaddr := [], app := []
    filenameDelimit := "artdaq".toList }

def otsCut : Elots :=
  { pid := 7, hostname := [], hostaddr := [], app := [], formatString := "%f%m".toList
    filenameDelimit := "artdaq".toList }

/-- The delimiter `artdaq` occurs in `artdaq_main.cc` and no `/` follows it. -/
theorem trimmed_past : fillPrefix plainMf mainMsg udpCut = none ∧
    Elots.fillPrefix plainMf "behind".toList mainMsg otsCut = .ok "behind".toList ∧
    ¬"behind".toList <:+ mainMsg.filename :=
  ⟨rfl, rfl, by decide⟩

end UdpSender

end MfExtensions
