import Mathlib.Data.List.Infix
import MfExtensions.Lib.Lines
import MfExtensions.LogReader

/-!
# Iterations of the log reader

What an iteration does with the lines it sees: it passes over all of them if none has `%MSG`
(`runOnce_plain`), and else emits a message whose header is the first that has
(`runOnce_found`, `runOnce_header`).
-/

namespace MfExtensions

open Lines

/-! ## Reading lines -/

namespace Log

/-- The stream is good, and `rest` is what is left of the file. -/
structure Reads (log : Log) (rest : Str) : Prop where
  eof : log.eof = false
  fail : log.fail = false
  rest : log.file.drop log.pos = rest

variable {log : Log} {l rest : Str}

theorem Reads.getline (h : log.Reads (l ++ '\n' :: rest)) (hl : '\n' ∉ l) (line : Str) :
    log.getline line = ({ log with pos := log.pos + l.length + 1 }, l) := by
  simp only [Log.getline, good, h.eof, h.fail, h.rest, Joined.takeWhile_of_notMem hl]
  simp

theorem Reads.next (h : log.Reads (l ++ '\n' :: rest)) :
    Reads { log with pos := log.pos + l.length + 1 } rest where
  eof := h.eof
  fail := h.fail
  rest := by
    rw [add_assoc, ← List.drop_drop, h.rest, List.drop_length_add_append]
    rfl

theorem Reads.getline_last (h : log.Reads rest) (hrest : '\n' ∉ rest) (line : Str) :
    log.getline line =
      ({ log with pos := log.pos + rest.length, eof := true, fail := rest.isEmpty }, rest) := by
  simp only [Log.getline, good, h.eof, h.fail, h.rest, takeWhile_whole hrest]
  simp

/-- A good stream does not read what the line was before. -/
theorem Reads.getline_eq (h : log.Reads rest) (line line' : Str) :
    log.getline line = log.getline line' := by
  simp only [Log.getline, good, h.eof, h.fail]
  rfl

theorem Reads.seekg_back (h : log.Reads rest) {log' : Log} (hfile : log'.file = log.file)
    (hfail : log'.fail = false) : seekg log.pos log' = log := by
  obtain ⟨file, pos, eof, fail⟩ := log
  obtain ⟨heof, hfail', -⟩ := h
  simp only at heof hfail' hfile ⊢
  simp [seekg, hfail, hfile, heof, hfail']

theorem reads_seekg (file : Str) (pos : ℕ) : Reads (seekg pos { file }) (file.drop pos) :=
  ⟨rfl, rfl, rfl⟩

end Log

namespace LogReader

theorem hasMsg_iff {l : Str} : hasMsg l = true ↔ "%MSG".toList <:+: l := by
  simp only [hasMsg, List.any_eq_true, List.mem_tails, List.isPrefixOf_iff_prefix,
    List.infix_iff_prefix_suffix]
  exact exists_congr fun t => and_comm

theorem hasMsg_of_infix {l l' : Str} (h : l <:+: l') (hl' : hasMsg l' = false) :
    hasMsg l = false := by
  rw [Bool.eq_false_iff] at hl' ⊢
  exact fun hl => hl' (hasMsg_iff.mpr ((hasMsg_iff.mp hl).trans h))

/-- A line without `%MSG`. -/
def Plain (l : Str) : Prop := '\n' ∉ l ∧ hasMsg l = false

variable {Tm : Type} {lib : LogLib Tm} {filename : Str} {log : Log} {r : LogReader}
  {ls bs : List Str} {h c p w : Str} {fuel : ℕ}

theorem Plain.of_infix {l l' : Str} (hl : l <:+: l') (h : Plain l') : Plain l :=
  ⟨fun hmem => h.1 (hl.subset hmem), hasMsg_of_infix hl h.2⟩

theorem plain_nil : Plain [] := ⟨by simp, by decide⟩

/-- Lines without `%MSG` can be cut anywhere. -/
theorem cut_plain (hls : ∀ l ∈ ls, Plain l) {n : ℕ} (hn : n ≤ (unlines '\n' ls).length) :
    ∃ a p b, (∀ l ∈ a, Plain l) ∧ Plain p ∧ (∀ l ∈ b, Plain l) ∧
      (unlines '\n' ls).take n = unlines '\n' a ++ p ∧
      (unlines '\n' ls).drop n = unlines '\n' b := by
  by_cases hcut : n < (unlines '\n' ls).length
  · obtain ⟨a, p, q, b, rfl, htake, hdrop⟩ := Lines.cut '\n' ls hcut
    rw [List.forall_mem_append, List.forall_mem_cons] at hls
    obtain ⟨ha, hline, hb⟩ := hls
    exact ⟨a, p, q :: b, ha, hline.of_infix (List.prefix_append p q).isInfix,
      List.forall_mem_cons.mpr ⟨hline.of_infix (List.suffix_append p q).isInfix, hb⟩, htake, hdrop⟩
  · have heq : n = (unlines '\n' ls).length := by omega
    refine ⟨ls, [], [], hls, plain_nil, by simp, ?_, ?_⟩
    · rw [heq, List.take_length, List.append_nil]
    · rw [heq, List.drop_length, unlines_nil]

/-- Lines without `%MSG` are passed over. -/
theorem scan_plain (fuel : ℕ) (hls : ∀ l ∈ ls, Plain l)
    (hlog : log.Reads (unlines '\n' ls ++ w)) :
    ∃ log', scan (ls.length + fuel) log = scan fuel log' ∧ log'.Reads w ∧
      log'.pos = log.pos + (unlines '\n' ls).length := by
  induction ls generalizing log with
  | nil => exact ⟨log, by simp, hlog, rfl⟩
  | cons l ls ih =>
    rw [List.forall_mem_cons] at hls
    rw [unlines_cons, List.append_assoc, List.cons_append] at hlog
    obtain ⟨log', hscan, hlog', hpos⟩ := ih hls.2 hlog.next
    refine ⟨log', ?_, hlog', ?_⟩
    · rw [List.length_cons, Nat.add_right_comm, scan, hlog.eof, hlog.getline hls.1.1, ← hscan]
      simp [hls.1.2]
    · rw [hpos]
      simp only [unlines_cons, List.length_append, List.length_cons]
      omega

theorem scan_found (hls : ∀ l ∈ ls, Plain l) (hh : '\n' ∉ h) (hmsg : hasMsg h = true)
    (hlog : log.Reads (unlines '\n' ls ++ (h ++ '\n' :: w))) (hfuel : ls.length + 1 ≤ fuel) :
    ∃ log', scan fuel log = some (true, log') ∧ log'.Reads (h ++ '\n' :: w) ∧
      log'.pos = log.pos + (unlines '\n' ls).length := by
  obtain ⟨k, rfl⟩ := Nat.exists_eq_add_of_le hfuel
  obtain ⟨log', hscan, hlog', hpos⟩ := scan_plain (1 + k) hls hlog
  refine ⟨log', ?_, hlog', hpos⟩
  rw [add_assoc, hscan, add_comm 1 k, scan, hlog'.eof, hlog'.getline hh]
  have hback := @Log.Reads.seekg_back _ _ hlog' { log' with pos := log'.pos + h.length + 1 } rfl
    hlog'.fail
  simp [hmsg, hback]

theorem scan_last (hls : ∀ l ∈ ls, Plain l) (hp : '\n' ∉ p) (hmsg : hasMsg p = true)
    (hlog : log.Reads (unlines '\n' ls ++ p)) (hfuel : ls.length + 1 ≤ fuel) :
    ∃ log', scan fuel log = some (true, log') ∧ log'.Reads p ∧
      log'.pos = log.pos + (unlines '\n' ls).length := by
  obtain ⟨k, rfl⟩ := Nat.exists_eq_add_of_le hfuel
  obtain ⟨log', hscan, hlog', hpos⟩ := scan_plain (1 + k) hls hlog
  have hne : p.isEmpty = false := by
    rw [Bool.eq_false_iff, ne_eq, List.isEmpty_iff]
    rintro rfl
    simp [plain_nil.2] at hmsg
  refine ⟨log', ?_, hlog', hpos⟩
  rw [add_assoc, hscan, add_comm 1 k, scan, hlog'.eof, hlog'.getline_last hp]
  have hback := @Log.Reads.seekg_back _ _ hlog' { log' with
    pos := log'.pos + p.length, eof := true, fail := p.isEmpty } rfl hne
  simp [hmsg, hback]

theorem scan_none (hls : ∀ l ∈ ls, Plain l) (hp : Plain p)
    (hlog : log.Reads (unlines '\n' ls ++ p)) (hfuel : ls.length + 2 ≤ fuel) :
    ∃ log', scan fuel log = some (false, log') ∧
      log'.pos = log.pos + (unlines '\n' ls ++ p).length := by
  obtain ⟨k, rfl⟩ := Nat.exists_eq_add_of_le hfuel
  obtain ⟨log', hscan, hlog', hpos⟩ := scan_plain (2 + k) hls hlog
  refine ⟨{ log' with pos := log'.pos + p.length, eof := true, fail := p.isEmpty }, ?_, ?_⟩
  · rw [add_assoc, hscan, add_comm 2 k, scan, hlog'.eof, hlog'.getline_last hp.1]
    simp [hp.2, scan]
  · rw [List.length_append, ← add_assoc, ← hpos]

/-- Lines without `%MSG` are put on the body. -/
theorem readBody_plain (fuel : ℕ) (hbs : ∀ l ∈ bs, Plain l)
    (hlog : log.Reads (unlines '\n' bs ++ w)) (body : Str) :
    ∃ log' : Log, log'.Reads w ∧ log'.pos = log.pos + (unlines '\n' bs).length ∧ ∀ line line',
      readBody (bs.length + fuel) (log.getline line).1 (log.getline line).2 body =
        readBody fuel (log'.getline line').1 (log'.getline line').2 (body ++ bs.flatten) := by
  induction bs generalizing log body with
  | nil =>
    refine ⟨log, hlog, rfl, fun line line' => ?_⟩
    rw [hlog.getline_eq line line']
    simp
  | cons l bs ih =>
    rw [List.forall_mem_cons] at hbs
    rw [unlines_cons, List.append_assoc, List.cons_append] at hlog
    obtain ⟨log', hlog', hpos, hread⟩ := ih hbs.2 hlog.next (body ++ l)
    refine ⟨log', hlog', ?_, fun line line' => ?_⟩
    · rw [hpos]
      simp only [unlines_cons, List.length_append, List.length_cons]
      omega
    · rw [List.length_cons, Nat.add_right_comm, hlog.getline hbs.1.1, List.flatten_cons,
        ← List.append_assoc, ← hread l line', readBody]
      simp [hlog.eof, hbs.1.2]

/-- What `read_next` takes for a body of the lines `bs` from the front of a text, and how long that
is: all up to a line with `%MSG`, or what there is but for a part of a line at its end. -/
inductive Body (bs : List Str) : Str → ℕ → Prop
  | closed {c w : Str} (hc : '\n' ∉ c) (hmsg : hasMsg c = true) :
    Body bs (unlines '\n' (bs ++ [c]) ++ w) (unlines '\n' (bs ++ [c])).length
  | cut {p : Str} (hp : '\n' ∉ p) : Body bs (unlines '\n' bs ++ p) (unlines '\n' bs ++ p).length

theorem Body.length_le {n : ℕ} (hbody : Body bs w n) : bs.length ≤ w.length := by
  have hlen := length_le_unlines '\n' bs
  cases hbody with
  | closed =>
    simp only [unlines_append, List.length_append]
    omega
  | cut =>
    rw [List.length_append]
    omega

theorem readBody_body {n : ℕ} (hbs : ∀ l ∈ bs, Plain l) (hbody : Body bs w n) (hlog : log.Reads w)
    (line : Str) (hfuel : bs.length + 1 ≤ fuel) :
    ∃ log', readBody fuel (log.getline line).1 (log.getline line).2 [] = some (bs.flatten, log') ∧
      log'.pos = log.pos + n := by
  obtain ⟨k, rfl⟩ := Nat.exists_eq_add_of_le hfuel
  rw [add_assoc, add_comm 1 k]
  cases hbody with
  | @closed c w hc hmsg =>
    rw [unlines_append, List.append_assoc] at hlog
    obtain ⟨log', hlog', hpos, hread⟩ := readBody_plain (k + 1) hbs hlog []
    simp only [unlines_cons, unlines_nil, List.append_assoc, List.cons_append,
      List.nil_append] at hlog'
    refine ⟨{ log' with pos := log'.pos + c.length + 1 }, ?_, ?_⟩
    · rw [hread line [], hlog'.getline hc, readBody]
      simp [hmsg]
    · simp only [unlines_append, List.length_append, unlines_cons, unlines_nil, List.length_cons,
        List.length_nil, hpos]
      omega
  | @cut p hp =>
    obtain ⟨log', hlog', hpos, hread⟩ := readBody_plain (k + 1) hbs hlog []
    refine ⟨{ log' with pos := log'.pos + p.length, eof := true, fail := p.isEmpty }, ?_, ?_⟩
    · rw [hread line [], hlog'.getline_last hp, readBody]
      simp
    · rw [List.length_append, ← add_assoc, ← hpos]

theorem readNext_body (lib : LogLib Tm) (filename : Str) {n : ℕ} (hh : '\n' ∉ h)
    (hbs : ∀ l ∈ bs, Plain l) (hbody : Body bs w n) (hlog : log.Reads (h ++ '\n' :: w))
    (counter : ℕ) (hfuel : bs.length + 1 ≤ fuel) :
    ∃ log', readNext lib filename fuel counter log =
        some (toMsg lib filename counter (readHeader lib h) bs.flatten, log') ∧
      log'.pos = log.pos + (h.length + 1 + n) := by
  obtain ⟨log', hread, hpos⟩ := readBody_body hbs hbody hlog.next h hfuel
  refine ⟨log', ?_, ?_⟩
  · rw [readNext, hlog.getline hh]
    simp only [hread]
    rfl
  · simp only [hpos]
    omega

/-! ## Iterations -/

theorem runOnce_scan {file : Str} {msgFound : Bool}
    (hscan : scan (file.length + 2) (Log.seekg r.pos { file }) = some (msgFound, log)) :
    runOnce lib filename file r =
      if msgFound then
        (readNext lib filename (file.length + 2) r.counter log).map fun (msg, log) =>
          { pos := log.pos, counter := r.counter + 1, emitted := r.emitted ++ [msg] }
      else some { r with pos := log.pos } := by
  have hgood : (Log.seekg r.pos { file }).good = true := rfl
  simp only [runOnce, hgood, if_true, hscan, Option.bind_eq_bind, Option.bind_some, Log.clear]
  cases msgFound with
  | true => cases readNext lib filename (file.length + 2) r.counter log <;> rfl
  | false => rfl

theorem length_le_of_drop {file : Str} {pos : ℕ} (hfile : file.drop pos = unlines '\n' ls ++ w) :
    ls.length + w.length ≤ file.length := by
  have hlen := congrArg List.length hfile
  have hls := length_le_unlines '\n' ls
  rw [List.length_drop, List.length_append] at hlen
  omega

/-- An iteration that sees no `%MSG` passes over all it sees. -/
theorem runOnce_plain {file : Str} (hls : ∀ l ∈ ls, Plain l) (hp : Plain p)
    (hfile : file.drop r.pos = unlines '\n' ls ++ p) :
    runOnce lib filename file r =
      some { r with pos := r.pos + (unlines '\n' ls ++ p).length } := by
  have hlog := Log.reads_seekg file r.pos
  have hlen := length_le_of_drop hfile
  rw [hfile] at hlog
  obtain ⟨log', hscan, hpos⟩ := scan_none hls hp hlog (show _ ≤ file.length + 2 by omega)
  rw [runOnce_scan hscan, hpos]
  rfl

/-- An iteration emits the first message it sees. -/
theorem runOnce_found {file : Str} {n : ℕ} (hls : ∀ l ∈ ls, Plain l) (hh : '\n' ∉ h)
    (hmsg : hasMsg h = true) (hbs : ∀ l ∈ bs, Plain l) (hbody : Body bs w n)
    (hfile : file.drop r.pos = unlines '\n' ls ++ (h ++ '\n' :: w)) :
    runOnce lib filename file r = some {
      pos := r.pos + (unlines '\n' ls).length + (h.length + 1 + n)
      counter := r.counter + 1
      emitted := r.emitted ++ [toMsg lib filename r.counter (readHeader lib h) bs.flatten] } := by
  have hlog := Log.reads_seekg file r.pos
  have hlen := length_le_of_drop hfile
  have hbs' := hbody.length_le
  rw [List.length_append, List.length_cons] at hlen
  rw [hfile] at hlog
  obtain ⟨log', hscan, hlog', hpos⟩ :=
    scan_found hls hh hmsg hlog (show _ ≤ file.length + 2 by omega)
  obtain ⟨log'', hread, hpos'⟩ := readNext_body lib filename hh hbs hbody hlog'
    r.counter (show _ ≤ file.length + 2 by omega)
  rw [runOnce_scan hscan, hread]
  simp only [if_true, Option.map_some, hpos', hpos]
  rfl

/-- The end of the file is taken for the end of a header too. -/
theorem runOnce_header {file : Str} (hls : ∀ l ∈ ls, Plain l) (hp : '\n' ∉ p)
    (hmsg : hasMsg p = true) (hfile : file.drop r.pos = unlines '\n' ls ++ p) :
    runOnce lib filename file r = some {
      pos := r.pos + (unlines '\n' ls ++ p).length
      counter := r.counter + 1
      emitted := r.emitted ++ [toMsg lib filename r.counter (readHeader lib p) []] } := by
  have hlog := Log.reads_seekg file r.pos
  have hlen := length_le_of_drop hfile
  rw [hfile] at hlog
  obtain ⟨log', hscan, hlog', hpos⟩ :=
    scan_last hls hp hmsg hlog (show _ ≤ file.length + 2 by omega)
  have hread : readNext lib filename (file.length + 2) r.counter log' =
      some (toMsg lib filename r.counter (readHeader lib p) [],
        { log' with pos := log'.pos + p.length, eof := true, fail := true }) := by
    rw [readNext, hlog'.getline_last hp]
    simp [Log.getline, Log.good, readBody]
  rw [runOnce_scan hscan, hread]
  simp only [if_true, Option.map_some, hpos, List.length_append, add_assoc]
  rfl

/-- How many lines have `%MSG`. -/
def marks (ls : List Str) : ℕ := ls.countP hasMsg

theorem marks_plain (hls : ∀ l ∈ ls, Plain l) : marks ls = 0 := by
  rw [marks, List.countP_eq_zero]
  intro l hl
  simp [(hls l hl).2]

theorem first_hasMsg (hls : ∀ l ∈ ls, '\n' ∉ l) : (∀ l ∈ ls, Plain l) ∨
    ∃ a h b, ls = a ++ h :: b ∧ (∀ l ∈ a, Plain l) ∧ hasMsg h = true ∧ marks ls = marks b + 1 := by
  rcases hfind : ls.find? hasMsg with _ | h
  · left
    intro l hl
    exact ⟨hls l hl, by simpa using List.find?_eq_none.mp hfind l hl⟩
  · right
    obtain ⟨hmsg, a, b, rfl, ha⟩ := List.find?_eq_some_iff_append.mp hfind
    have ha' : ∀ l ∈ a, Plain l := fun l hl =>
      ⟨hls l (List.mem_append_left _ hl), by simpa using ha l hl⟩
    refine ⟨a, h, b, rfl, ha', hmsg, ?_⟩
    have := marks_plain ha'
    simp only [marks, List.countP_append, List.countP_cons, hmsg] at this ⊢
    simp [this]

/-- The loops of an iteration end, whatever is visible. -/
theorem runOnce_ends (file : Str) (r : LogReader) :
    ∃ r', runOnce lib filename file r = some r' := by
  obtain ⟨ls, p, hfile, hls, hp⟩ := exists_lines '\n' (file.drop r.pos)
  rcases first_hasMsg hls with hplain | ⟨a, h, b, rfl, ha, hmsg, -⟩
  · by_cases hmsg : hasMsg p = true
    · exact ⟨_, runOnce_header hplain hp hmsg hfile⟩
    · exact ⟨_, runOnce_plain hplain ⟨hp, Bool.eq_false_iff.mpr hmsg⟩ hfile⟩
  rw [List.forall_mem_append, List.forall_mem_cons] at hls
  obtain ⟨-, hh, hb⟩ := hls
  rw [unlines_append, unlines_cons, List.append_assoc, List.append_assoc, List.cons_append] at hfile
  rcases first_hasMsg hb with hplain | ⟨a', c, b', rfl, ha', hmsg', -⟩
  · exact ⟨_, runOnce_found ha hh hmsg hplain (.cut hp) hfile⟩
  · have hsplit : unlines '\n' (a' ++ c :: b') ++ p =
        unlines '\n' (a' ++ [c]) ++ (unlines '\n' b' ++ p) := by
      simp
    rw [hsplit] at hfile
    rw [List.forall_mem_append, List.forall_mem_cons] at hb
    exact ⟨_, runOnce_found ha hh hmsg ha' (.closed hb.2.1 hmsg') hfile⟩

theorem after_ends (lib : LogLib Tm) (filename : Str) (looks : ℕ → Str) (n : ℕ) :
    ∃ r, after lib filename looks n = some r := by
  induction n with
  | zero => exact ⟨{}, rfl⟩
  | succ n ih =>
    obtain ⟨r, hr⟩ := ih
    rw [after, hr]
    exact runOnce_ends (looks n) r

end LogReader

end MfExtensions
