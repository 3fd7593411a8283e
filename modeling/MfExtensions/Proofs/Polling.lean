import MfExtensions.Proofs.LogReader

/-!
# Polling the log

A log is a number of messages, each a `%MSG` header, lines of its body and a `%MSG` line that closes
it. Iterations see more and more of it. If each shows nothing of the message to be read next, or all
of it but for a part of its last line, what is emitted does not depend on what they show
(`emitted_eq`). One that does not has the header lost, or the message emitted too early
(`emitted_ne`).
-/

namespace MfExtensions

open Lines

namespace LogReader

variable {Tm : Type} {lib : LogLib Tm} {filename : Str} {r : LogReader} {ls : List Str} {h w : Str}

/-! ## Logs -/

/-- A message as it stands in a log. -/
structure LogMsg where
  header : Str
  body : List Str
  closing : Str
  header_line : '\n' ∉ header
  header_msg : "%MSG".toList <+: header
  body_plain : ∀ l ∈ body, Plain l
  closing_line : '\n' ∉ closing
  closing_msg : "%MSG".toList <+: closing

namespace LogMsg

def lines (m : LogMsg) : List Str := m.header :: m.body ++ [m.closing]

def text (m : LogMsg) : Str := unlines '\n' m.lines

theorem text_eq (m : LogMsg) :
    m.text = m.header ++ '\n' :: unlines '\n' (m.body ++ [m.closing]) := by
  rw [text, lines, List.cons_append, unlines_cons]

theorem header_hasMsg (m : LogMsg) : hasMsg m.header = true := hasMsg_iff.mpr m.header_msg.isInfix

theorem closing_hasMsg (m : LogMsg) : hasMsg m.closing = true :=
  hasMsg_iff.mpr m.closing_msg.isInfix

/-- What is left without `%MSG` of a message that is cut is a part of its last line. -/
theorem cut {m : LogMsg} {n : ℕ} (hn : n < m.text.length)
    (hplain : hasMsg (m.text.drop n) = false) :
    ∃ p q, m.closing = p ++ q ∧ m.text.take n = unlines '\n' (m.header :: m.body) ++ p ∧
      m.text.drop n = unlines '\n' [q] ∧ hasMsg q = false := by
  obtain ⟨a, p, q, b, heq, htake, hdrop⟩ := Lines.cut '\n' m.lines hn
  rw [text, hdrop] at hplain
  rcases List.eq_nil_or_concat' b with rfl | ⟨b, c, rfl⟩
  · obtain ⟨hfront, hlast⟩ := List.append_inj' heq rfl
    rw [List.singleton_inj] at hlast
    refine ⟨p, q, hlast, ?_, hdrop, hasMsg_of_infix (infix_unlines '\n' ?_) hplain⟩
    · rw [text, htake, hfront]
    · exact List.mem_singleton_self q
  · -- the last line would be left whole
    have heq' : m.header :: m.body ++ [m.closing] = (a ++ (p ++ q) :: b) ++ [c] := by
      rw [← lines, heq, List.append_assoc, List.cons_append]
    have hlast := List.singleton_inj.mp (List.append_inj' heq' rfl).2
    have hc := hasMsg_of_infix (infix_unlines '\n' (List.mem_cons_of_mem q
      (List.mem_append_right b (List.mem_singleton_self c)))) hplain
    rw [← hlast, m.closing_hasMsg] at hc
    simp at hc

end LogMsg

def logText (ms : List LogMsg) : Str := ms.flatMap LogMsg.text

/-- Where the message after the first `k` starts. -/
def offset (ms : List LogMsg) (k : ℕ) : ℕ := (logText (ms.take k)).length

/-- What is emitted of a log that is read message by message. -/
def messages (lib : LogLib Tm) (filename : Str) (ms : List LogMsg) : List QtMfMsg :=
  ms.mapIdx fun k m => toMsg lib filename k (readHeader lib m.header) m.body.flatten

/-- The reader has emitted the messages before a point of the log, and nothing but a part of a line
without `%MSG` is between its position and this point. -/
structure Between (lib : LogLib Tm) (filename : Str) (ms : List LogMsg) (r : LogReader) : Prop where
  emitted : r.emitted = (messages lib filename ms).take r.counter
  pos_le : r.pos ≤ (logText ms).length
  rest : ∃ ls : List Str, (∀ l ∈ ls, Plain l) ∧
    (logText ms).drop r.pos = unlines '\n' ls ++ logText (ms.drop r.counter)

/-- What is visible shows nothing of the message to be read next, or so much of it that no `%MSG` of
it is left. -/
def Clear (ms : List LogMsg) (counter : ℕ) (v : Str) : Prop :=
  ∀ m, ms[counter]? = some m → v.length ≤ offset ms counter ∨
    hasMsg (m.text.drop (v.length - offset ms counter)) = false

variable {ms : List LogMsg} {m : LogMsg} {v : Str}

theorem between_init : Between lib filename ms {} :=
  ⟨rfl, Nat.zero_le _, [], by simp, rfl⟩

theorem logText_split (ms : List LogMsg) (k : ℕ) :
    logText ms = logText (ms.take k) ++ logText (ms.drop k) := by
  rw [logText, logText, logText, ← List.flatMap_append, List.take_append_drop]

theorem length_logText (ms : List LogMsg) (k : ℕ) :
    (logText ms).length = offset ms k + (logText (ms.drop k)).length := by
  rw [offset, ← List.length_append, ← logText_split]

theorem getElem?_messages (lib : LogLib Tm) (filename : Str) (hm : ms[r.counter]? = some m) :
    (messages lib filename ms)[r.counter]? =
      some (toMsg lib filename r.counter (readHeader lib m.header) m.body.flatten) := by
  rw [messages, List.getElem?_mapIdx, hm]
  rfl

theorem drop_next (hm : ms[r.counter]? = some m) :
    logText (ms.drop r.counter) = m.text ++ logText (ms.drop (r.counter + 1)) := by
  obtain ⟨hlt, rfl⟩ := List.getElem?_eq_some_iff.mp hm
  rw [List.drop_eq_getElem_cons hlt, logText, List.flatMap_cons]
  rfl

/-- What is visible from the position of the reader on. -/
theorem visible_eq (hv : v <+: logText ms)
    (hrest : (logText ms).drop r.pos = unlines '\n' ls ++ logText (ms.drop r.counter)) :
    v.drop r.pos = (unlines '\n' ls ++ logText (ms.drop r.counter)).take (v.length - r.pos) := by
  rw [← hrest, ← List.drop_take, ← List.prefix_iff_eq_take.mp hv]

theorem Between.offset_eq (h : Between lib filename ms r)
    (hrest : (logText ms).drop r.pos = unlines '\n' ls ++ logText (ms.drop r.counter)) :
    r.pos + (unlines '\n' ls).length = offset ms r.counter := by
  have hlen := congrArg List.length hrest
  have hsplit := length_logText ms r.counter
  have hpos := h.pos_le
  rw [List.length_drop, List.length_append] at hlen
  omega

/-- An iteration that sees nothing of the next message. -/
theorem Between.before (h : Between lib filename ms r) (hv : v <+: logText ms)
    (hpos : r.pos ≤ v.length) (hstart : v.length ≤ offset ms r.counter) :
    ∃ r', runOnce lib filename v r = some r' ∧ Between lib filename ms r' ∧ r'.pos = v.length ∧
      r'.counter = r.counter := by
  obtain ⟨ls, hls, hrest⟩ := h.rest
  have hlen := h.offset_eq hrest
  have hle : v.length - r.pos ≤ (unlines '\n' ls).length := by omega
  obtain ⟨a, p, b, ha, hp, hb, htake, hdrop⟩ := cut_plain hls hle
  have hvisible := visible_eq hv hrest
  rw [List.take_append_of_le_length hle, htake] at hvisible
  have hend : r.pos + (unlines '\n' a ++ p).length = v.length := by
    rw [← hvisible, List.length_drop]
    omega
  refine ⟨_, runOnce_plain ha hp hvisible, ⟨h.emitted, ?_, b, hb, ?_⟩, hend, rfl⟩
  · rw [hend]
    exact hv.length_le
  · rw [hend, ← Nat.add_sub_cancel' hpos, ← List.drop_drop, hrest,
      List.drop_append_of_le_length hle, hdrop]

/-- What is visible of the log from the next message on. -/
theorem Between.visible_next (h : Between lib filename ms r) (hv : v <+: logText ms)
    (hm : ms[r.counter]? = some m) (hstart : offset ms r.counter ≤ v.length)
    (hrest : (logText ms).drop r.pos = unlines '\n' ls ++ logText (ms.drop r.counter)) :
    v.drop r.pos = unlines '\n' ls ++ (m.text ++ logText (ms.drop (r.counter + 1))).take
      (v.length - offset ms r.counter) := by
  have hlen := h.offset_eq hrest
  rw [visible_eq hv hrest, drop_next hm, ← List.take_length_add_append]
  congr 1
  omega

theorem drop_after (hm : ms[r.counter]? = some m) {n : ℕ}
    (hn : offset ms r.counter ≤ n) :
    (logText ms).drop n = (m.text ++ logText (ms.drop (r.counter + 1))).drop
      (n - offset ms r.counter) := by
  obtain ⟨k, rfl⟩ := Nat.exists_eq_add_of_le hn
  rw [← drop_next hm, logText_split ms r.counter, offset, List.drop_length_add_append,
    Nat.add_sub_cancel_left]

theorem Between.emitted_next (h : Between lib filename ms r) (hm : ms[r.counter]? = some m) :
    r.emitted ++ [toMsg lib filename r.counter (readHeader lib m.header) m.body.flatten] =
      (messages lib filename ms).take (r.counter + 1) := by
  rw [List.take_add_one, getElem?_messages lib filename hm, h.emitted]
  rfl

/-- An iteration that sees the next message, but for a part of its last line. -/
theorem Between.cut (h : Between lib filename ms r) (hv : v <+: logText ms)
    (hm : ms[r.counter]? = some m) (hstart : offset ms r.counter < v.length)
    (hend : v.length - offset ms r.counter < m.text.length)
    (hplain : hasMsg (m.text.drop (v.length - offset ms r.counter)) = false) :
    ∃ r', runOnce lib filename v r = some r' ∧ Between lib filename ms r' ∧ r'.pos = v.length ∧
      r'.counter = r.counter + 1 := by
  obtain ⟨ls, hls, hrest⟩ := h.rest
  have hlen := h.offset_eq hrest
  obtain ⟨p, q, hclosing, htake, hdrop, hq⟩ := LogMsg.cut hend hplain
  have hline := m.closing_line
  rw [hclosing, List.mem_append, not_or] at hline
  have hvisible := h.visible_next hv hm hstart.le hrest
  rw [List.take_append_of_le_length hend.le, htake, unlines_cons, List.append_assoc,
    List.cons_append] at hvisible
  have hpos : r.pos + (unlines '\n' ls).length + (m.header.length + 1 +
      (unlines '\n' m.body ++ p).length) = v.length := by
    have hseen := congrArg List.length htake
    rw [List.length_take_of_le hend.le] at hseen
    simp only [unlines_cons, List.length_append, List.length_cons] at hseen ⊢
    omega
  refine ⟨_, runOnce_found hls m.header_line m.header_hasMsg m.body_plain (.cut hline.1) hvisible,
    ⟨h.emitted_next hm, ?_, [q], ?_, ?_⟩, hpos, rfl⟩
  · rw [hpos]
    exact hv.length_le
  · simpa using ⟨hline.2, hq⟩
  · rw [hpos, drop_after hm hstart.le, List.drop_append_of_le_length hend.le, hdrop]

/-- An iteration that sees the whole of the next message. -/
theorem Between.whole (h : Between lib filename ms r) (hv : v <+: logText ms)
    (hm : ms[r.counter]? = some m)
    (hend : offset ms r.counter + m.text.length ≤ v.length) :
    ∃ r', runOnce lib filename v r = some r' ∧ Between lib filename ms r' ∧ r'.pos ≤ v.length ∧
      r'.counter = r.counter + 1 := by
  obtain ⟨ls, hls, hrest⟩ := h.rest
  have hlen := h.offset_eq hrest
  obtain ⟨k, hk⟩ := Nat.exists_eq_add_of_le hend
  have hvisible := h.visible_next hv hm (by omega) hrest
  rw [show v.length - offset ms r.counter = m.text.length + k by omega,
    List.take_length_add_append] at hvisible
  rw [m.text_eq, List.append_assoc, List.cons_append] at hvisible
  have hpos : r.pos + (unlines '\n' ls).length + (m.header.length + 1 +
      (unlines '\n' (m.body ++ [m.closing])).length) =
        r.pos + ((unlines '\n' ls).length + m.text.length) := by
    rw [m.text_eq, List.length_append, List.length_cons]
    omega
  refine ⟨_, runOnce_found hls m.header_line m.header_hasMsg m.body_plain
    (.closed m.closing_line m.closing_hasMsg) hvisible,
    ⟨h.emitted_next hm, ?_, [], by simp, ?_⟩, ?_, rfl⟩
  · have := hv.length_le
    simp only [hpos]
    omega
  · rw [hpos, ← List.drop_drop, hrest, List.drop_length_add_append, drop_next hm]
    simp
  · simp only [hpos]
    omega

theorem LogMsg.text_pos (m : LogMsg) : 0 < m.text.length := by
  simp [LogMsg.text, LogMsg.lines]

/-- Everything is clear once the whole log is visible. -/
theorem clear_full (ms : List LogMsg) (k : ℕ) : Clear ms k (logText ms) := by
  intro m hm
  right
  have hsplit := length_logText ms k
  rw [drop_next (r := { counter := k }) hm, List.length_append] at hsplit
  rw [List.drop_eq_nil_of_le (by omega)]
  decide

/-- An iteration that is clear keeps the reader between two messages, and goes on to the next one if
the whole log is visible. -/
theorem Between.step (h : Between lib filename ms r) (hv : v <+: logText ms)
    (hpos : r.pos ≤ v.length) (hclear : Clear ms r.counter v) :
    ∃ r', runOnce lib filename v r = some r' ∧ Between lib filename ms r' ∧ r'.pos ≤ v.length ∧
      r.counter ≤ r'.counter ∧
      (v = logText ms → r.counter < ms.length → r'.counter = r.counter + 1) := by
  by_cases hstart : v.length ≤ offset ms r.counter
  · obtain ⟨r', hrun, hbetween, hend, hcounter⟩ := h.before hv hpos hstart
    refine ⟨r', hrun, hbetween, hend.le, hcounter.ge, fun hfull hlt => ?_⟩
    have hsplit := length_logText ms r.counter
    have hm : ms[r.counter]? = some ms[r.counter] := List.getElem?_eq_getElem hlt
    have hnonempty := (ms[r.counter]).text_pos
    rw [drop_next hm, List.length_append, ← hfull] at hsplit
    omega
  · have hlt : r.counter < ms.length := by
      by_contra hle
      rw [offset, List.take_of_length_le (not_lt.mp hle)] at hstart
      exact hstart hv.length_le
    obtain ⟨m, hm⟩ : ∃ m, ms[r.counter]? = some m := ⟨_, List.getElem?_eq_getElem hlt⟩
    have hplain := (hclear m hm).resolve_left hstart
    by_cases hend : v.length - offset ms r.counter < m.text.length
    · obtain ⟨r', hrun, hbetween, hpos', hcounter⟩ := h.cut hv hm (not_le.mp hstart) hend hplain
      exact ⟨r', hrun, hbetween, hpos'.le, by omega, fun _ _ => hcounter⟩
    · obtain ⟨r', hrun, hbetween, hpos', hcounter⟩ := h.whole hv hm (by omega)
      exact ⟨r', hrun, hbetween, hpos', by omega, fun _ _ => hcounter⟩

/-! ## Runs -/

/-- More and more of a text is visible, and all of it in the end. -/
structure Grows (full : Str) (looks : ℕ → Str) : Prop where
  mono (i : ℕ) : looks i <+: looks (i + 1)
  visible (i : ℕ) : looks i <+: full
  all : ∃ i, looks i = full

theorem Grows.const (full : Str) : Grows full fun _ => full :=
  ⟨fun _ => List.prefix_rfl, fun _ => List.prefix_rfl, 0, rfl⟩

theorem Grows.stays {full : Str} {looks : ℕ → Str} (h : Grows full looks) {i : ℕ}
    (hi : looks i = full) (j : ℕ) : looks (i + j) = full := by
  induction j with
  | zero => exact hi
  | succ j ih =>
    have hmono := h.mono (i + j)
    rw [ih] at hmono
    exact (h.visible _).eq_of_length_le hmono.length_le

variable {looks : ℕ → Str}

/-- What an iteration emits is counted. -/
theorem runOnce_emits {r' : LogReader} (h : runOnce lib filename v r = some r') :
    ∃ msgs, r'.emitted = r.emitted ++ msgs ∧ r'.counter = r.counter + msgs.length := by
  have hgood : (Log.seekg r.pos { file := v }).good = true := rfl
  simp only [runOnce, hgood, if_true, Option.bind_eq_bind, Option.bind_eq_some_iff] at h
  obtain ⟨⟨msgFound, log⟩, -, h⟩ := h
  by_cases hfound : msgFound = true
  · rw [if_pos hfound] at h
    obtain ⟨⟨msg, log'⟩, -, h⟩ := Option.bind_eq_some_iff.mp h
    obtain rfl := Option.some.inj h
    exact ⟨[msg], rfl, rfl⟩
  · rw [if_neg hfound] at h
    obtain rfl := Option.some.inj h
    exact ⟨[], (List.append_nil _).symm, rfl⟩

theorem after_emits {r' : LogReader} {i j : ℕ} (hij : i ≤ j)
    (hi : after lib filename looks i = some r) (hj : after lib filename looks j = some r') :
    ∃ msgs, r'.emitted = r.emitted ++ msgs ∧ r'.counter = r.counter + msgs.length := by
  induction j, hij using Nat.le_induction generalizing r' with
  | base =>
    obtain rfl := Option.some.inj (hi.symm.trans hj)
    exact ⟨[], (List.append_nil _).symm, rfl⟩
  | succ j _ ih =>
    obtain ⟨r₀, hr₀, hrun⟩ := Option.bind_eq_some_iff.mp hj
    obtain ⟨msgs, hemitted, hcounter⟩ := ih hr₀
    obtain ⟨msgs', hemitted', hcounter'⟩ := runOnce_emits hrun
    refine ⟨msgs ++ msgs', ?_, ?_⟩
    · rw [hemitted', hemitted, List.append_assoc]
    · rw [hcounter', hcounter, List.length_append, add_assoc]

/-- In a run of clear iterations the reader is between two messages. -/
theorem after_between {n : ℕ} (hgrow : Grows (logText ms) looks)
    (hclear : ∀ k < n, ∀ r, after lib filename looks k = some r → Clear ms r.counter (looks k)) :
    ∃ r, after lib filename looks n = some r ∧ Between lib filename ms r ∧
      r.pos ≤ (looks n).length := by
  induction n with
  | zero => exact ⟨{}, rfl, between_init, Nat.zero_le _⟩
  | succ n ih =>
    obtain ⟨r, hr, hbetween, hpos⟩ := ih fun k hk => hclear k (hk.trans (Nat.lt_succ_self n))
    obtain ⟨r', hrun, hbetween', hpos', -, -⟩ :=
      hbetween.step (hgrow.visible n) hpos (hclear n (Nat.lt_succ_self n) r hr)
    refine ⟨r', ?_, hbetween', hpos'.trans (hgrow.mono n).length_le⟩
    rw [after, hr]
    exact hrun

/-- With the whole log visible each iteration emits a message until all are emitted. -/
theorem after_counter (hgrow : Grows (logText ms) looks)
    (hclear : ∀ n r, after lib filename looks n = some r → Clear ms r.counter (looks n)) {i : ℕ}
    (hi : looks i = logText ms) (j : ℕ) :
    ∃ r, after lib filename looks (i + j) = some r ∧ min j ms.length ≤ r.counter := by
  induction j with
  | zero =>
    obtain ⟨r, hr, -, -⟩ := after_between (n := i) hgrow fun k _ => hclear k
    exact ⟨r, hr, by simp⟩
  | succ j ih =>
    obtain ⟨r, hr, hcounter⟩ := ih
    obtain ⟨r₀, hr₀, hbetween, hpos⟩ := after_between (n := i + j) hgrow fun k _ => hclear k
    obtain rfl : r₀ = r := Option.some.inj (hr₀.symm.trans hr)
    obtain ⟨r', hrun, -, -, hle, hnext⟩ :=
      hbetween.step (hgrow.visible _) hpos (hclear _ r₀ hr)
    refine ⟨r', ?_, ?_⟩
    · rw [← add_assoc, after, hr]
      exact hrun
    · by_cases hlt : r₀.counter < ms.length
      · have := hnext (hgrow.stays hi j) hlt
        omega
      · omega

theorem emitted_all (lib : LogLib Tm) (filename : Str) (hgrow : Grows (logText ms) looks)
    (hclear : ∀ n r, after lib filename looks n = some r → Clear ms r.counter (looks n)) :
    ∃ N, ∀ n ≥ N, ∃ r, after lib filename looks n = some r ∧
      r.emitted = messages lib filename ms := by
  obtain ⟨i, hi⟩ := hgrow.all
  refine ⟨i + ms.length, fun n hn => ?_⟩
  obtain ⟨j, rfl⟩ := Nat.exists_eq_add_of_le (show i ≤ n by omega)
  obtain ⟨r, hr, hcounter⟩ := after_counter hgrow hclear hi j
  obtain ⟨r', hr', hbetween, -⟩ := after_between (n := i + j) hgrow fun k _ => hclear k
  obtain rfl : r' = r := Option.some.inj (hr'.symm.trans hr)
  refine ⟨r', hr, ?_⟩
  rw [hbetween.emitted, List.take_of_length_le]
  rw [messages, List.length_mapIdx]
  omega

/-- If every iteration is clear, what is emitted is in the end what is emitted of a log that is
visible as a whole. -/
theorem emitted_eq (hgrow : Grows (logText ms) looks)
    (hclear : ∀ n r, after lib filename looks n = some r → Clear ms r.counter (looks n)) :
    ∃ N, ∀ n ≥ N, ∃ r r', after lib filename looks n = some r ∧
      after lib filename (fun _ => logText ms) n = some r' ∧ r.emitted = r'.emitted ∧
      r'.emitted = messages lib filename ms := by
  obtain ⟨N, hN⟩ := emitted_all lib filename hgrow hclear
  obtain ⟨N', hN'⟩ := emitted_all lib filename (Grows.const (logText ms)) fun _ r _ =>
    clear_full ms r.counter
  refine ⟨max N N', fun n hn => ?_⟩
  obtain ⟨r, hr, hall⟩ := hN n (le_of_max_le_left hn)
  obtain ⟨r', hr', hall'⟩ := hN' n (le_of_max_le_right hn)
  exact ⟨r, r', hr, hr', hall.trans hall'.symm, hall'⟩

/-! ## Iterations that are not clear

An iteration that shows `%MSG` of a header and leaves a `%MSG` of its message emits the message too
early. What is left is read as one message more. -/

theorem drop_found {file : Str} {pos : ℕ}
    (hfile : file.drop pos = unlines '\n' ls ++ (h ++ '\n' :: w)) (n : ℕ) :
    file.drop (pos + (unlines '\n' ls).length + (h.length + 1 + n)) = w.drop n := by
  have hline : h ++ '\n' :: w = (h ++ ['\n']) ++ w := by simp
  have hlen : h.length + 1 = (h ++ ['\n']).length := by simp
  rw [add_assoc, ← List.drop_drop, hfile, List.drop_length_add_append, hline, hlen,
    List.drop_length_add_append]

/-- Of a file that ends in a newline an iteration reads two lines with `%MSG`, if there are. -/
theorem runOnce_marks (lib : LogLib Tm) (filename : Str) {file : Str} (hls : ∀ l ∈ ls, '\n' ∉ l)
    (hfile : file.drop r.pos = unlines '\n' ls) :
    ∃ r' ls', runOnce lib filename file r = some r' ∧ (∀ l ∈ ls', '\n' ∉ l) ∧
      file.drop r'.pos = unlines '\n' ls' ∧ marks ls' = marks ls - 2 ∧
      r'.counter + (marks ls' + 1) / 2 = r.counter + (marks ls + 1) / 2 := by
  have hnil : marks [] = 0 := rfl
  rcases first_hasMsg hls with hplain | ⟨a, h, b, rfl, ha, hmsg, hmarks⟩
  · have hfile' : file.drop r.pos = unlines '\n' ls ++ [] := by rw [hfile, List.append_nil]
    have hmarks := marks_plain hplain
    refine ⟨_, [], runOnce_plain hplain plain_nil hfile', by simp, ?_, ?_, ?_⟩
    · rw [← List.drop_drop, ← hfile', List.drop_length, unlines_nil]
    · omega
    · rw [hnil, hmarks]
  rw [List.forall_mem_append, List.forall_mem_cons] at hls
  obtain ⟨-, hh, hb⟩ := hls
  rw [unlines_append, unlines_cons] at hfile
  rcases first_hasMsg hb with hplain | ⟨a', c, b', rfl, ha', hmsg', hmarks'⟩
  · have hbody : Body b (unlines '\n' b) (unlines '\n' b).length := by
      simpa using @Body.cut b [] (by simp)
    have hmarks' := marks_plain hplain
    refine ⟨_, [], runOnce_found ha hh hmsg hplain hbody hfile, by simp, ?_, ?_, ?_⟩
    · rw [drop_found hfile, List.drop_length, unlines_nil]
    · omega
    · simp only
      omega
  · rw [List.forall_mem_append, List.forall_mem_cons] at hb
    have hbody : Body a' (unlines '\n' (a' ++ c :: b')) (unlines '\n' (a' ++ [c])).length := by
      simpa using @Body.closed a' c (unlines '\n' b') hb.2.1 hmsg'
    refine ⟨_, b', runOnce_found ha hh hmsg ha' hbody hfile, hb.2.2, ?_, ?_, ?_⟩
    · have hsplit : unlines '\n' (a' ++ c :: b') = unlines '\n' (a' ++ [c]) ++ unlines '\n' b' := by
        simp
      rw [drop_found hfile, hsplit, List.drop_left]
    · omega
    · simp only
      omega

/-- All that is left is read two lines with `%MSG` at a time. -/
theorem after_marks {file : Str} {i : ℕ} (hi : after lib filename looks i = some r)
    (hall : ∀ j ≥ i, looks j = file) (hls : ∀ l ∈ ls, '\n' ∉ l)
    (hfile : file.drop r.pos = unlines '\n' ls) (j : ℕ) :
    ∃ r' ls', after lib filename looks (i + j) = some r' ∧ (∀ l ∈ ls', '\n' ∉ l) ∧
      file.drop r'.pos = unlines '\n' ls' ∧ marks ls' = marks ls - 2 * j ∧
      r'.counter + (marks ls' + 1) / 2 = r.counter + (marks ls + 1) / 2 := by
  induction j with
  | zero => exact ⟨r, ls, hi, hls, hfile, rfl, rfl⟩
  | succ j ih =>
    obtain ⟨r', ls', hr', hls', hfile', hmarks, hcounter⟩ := ih
    obtain ⟨r'', ls'', hrun, hls'', hfile'', hmarks', hcounter'⟩ :=
      runOnce_marks lib filename hls' hfile'
    refine ⟨r'', ls'', ?_, hls'', hfile'', by omega, hcounter'.trans hcounter⟩
    rw [← add_assoc, after, hr', hall (i + j) (Nat.le_add_right i j)]
    exact hrun

theorem LogMsg.lines_line (m : LogMsg) : ∀ l ∈ m.lines, '\n' ∉ l := by
  simp only [LogMsg.lines, List.forall_mem_append, List.forall_mem_cons]
  exact ⟨⟨m.header_line, fun l hl => (m.body_plain l hl).1⟩, m.closing_line, by simp⟩

theorem LogMsg.marks_lines (m : LogMsg) : marks m.lines = 2 := by
  have hbody := marks_plain m.body_plain
  simp only [marks] at hbody
  simp [marks, LogMsg.lines, m.header_hasMsg, m.closing_hasMsg, hbody]

theorem logText_lines (ms : List LogMsg) : logText ms = unlines '\n' (ms.flatMap LogMsg.lines) := by
  induction ms with
  | nil => rfl
  | cons m ms ih =>
    rw [List.flatMap_cons, unlines_append, ← ih, logText, List.flatMap_cons]
    rfl

theorem marks_flatMap (ms : List LogMsg) : marks (ms.flatMap LogMsg.lines) = 2 * ms.length := by
  induction ms with
  | nil => rfl
  | cons m ms ih =>
    have hm := m.marks_lines
    rw [marks] at ih hm ⊢
    rw [List.flatMap_cons, List.countP_append, ih, hm, List.length_cons]
    omega

theorem one_le_marks (h : hasMsg (unlines '\n' ls) = true) : 1 ≤ marks ls := by
  obtain ⟨l, hl, hmsg⟩ := exists_of_infix '\n' (by decide) (by decide) (hasMsg_iff.mp h)
  exact List.countP_pos_iff.mpr ⟨l, hl, hasMsg_iff.mpr hmsg⟩

/-- The lines of a message before its last one are the header and lines of its body. -/
theorem LogMsg.front {m : LogMsg} {a b : List Str} {l : Str} (h : m.lines = a ++ l :: b) :
    a = [] ∧ l = m.header ∨ ∃ bs, a = m.header :: bs ∧ ∀ l ∈ bs, Plain l := by
  rcases a with _ | ⟨h', bs⟩
  · left
    rw [LogMsg.lines, List.cons_append, List.nil_append] at h
    exact ⟨rfl, (List.cons.inj h).1.symm⟩
  · right
    rw [LogMsg.lines, List.cons_append, List.cons_append] at h
    obtain ⟨rfl, hrest⟩ := List.cons.inj h
    refine ⟨bs, rfl, fun l' hl' => m.body_plain l' ?_⟩
    have hbs : bs <+: m.body ++ [m.closing] := by
      rw [hrest]
      exact List.prefix_append _ _
    have hlen := congrArg List.length hrest
    simp only [List.length_append, List.length_cons, List.length_nil] at hlen
    have hbody := List.prefix_of_prefix_length_le hbs (List.prefix_append _ _) (by omega)
    exact hbody.subset hl'

/-- What is left of the lines of a message, and the lines of the messages after it. -/
def linesLeft (ms : List LogMsg) (k : ℕ) (ls : List Str) : List Str :=
  ls ++ (ms.drop (k + 1)).flatMap LogMsg.lines

theorem drop_linesLeft (hm : ms[r.counter]? = some m) {n : ℕ} (hn : offset ms r.counter ≤ n)
    (hcut : n - offset ms r.counter ≤ m.text.length)
    (hdrop : m.text.drop (n - offset ms r.counter) = unlines '\n' ls) :
    (logText ms).drop n = unlines '\n' (linesLeft ms r.counter ls) := by
  rw [drop_after hm hn, List.drop_append_of_le_length hcut, hdrop, logText_lines, ← unlines_append,
    linesLeft]

theorem linesLeft_line (ms : List LogMsg) (k : ℕ) (hls : ∀ l ∈ ls, '\n' ∉ l) :
    ∀ l ∈ linesLeft ms k ls, '\n' ∉ l := by
  rw [linesLeft, List.forall_mem_append]
  refine ⟨hls, fun l hl => ?_⟩
  obtain ⟨m, -, hl⟩ := List.mem_flatMap.mp hl
  exact m.lines_line l hl

theorem marks_linesLeft (ms : List LogMsg) (k : ℕ) (hls : 1 ≤ marks ls) :
    2 * (ms.length - k) ≤ marks (linesLeft ms k ls) + 1 := by
  have hrest := marks_flatMap (ms.drop (k + 1))
  rw [List.length_drop] at hrest
  rw [marks] at hls hrest ⊢
  rw [linesLeft, List.countP_append]
  omega

/-- An iteration that shows `%MSG` of a header and leaves a `%MSG` of its message. -/
theorem Between.unclear (h : Between lib filename ms r) (hv : v <+: logText ms)
    (hm : ms[r.counter]? = some m) (hseen : offset ms r.counter + 4 ≤ v.length)
    (hleft : hasMsg (m.text.drop (v.length - offset ms r.counter)) = true) :
    ∃ r' ls', runOnce lib filename v r = some r' ∧ r'.counter = r.counter + 1 ∧
      (∀ l ∈ ls', '\n' ∉ l) ∧ (logText ms).drop r'.pos = unlines '\n' ls' ∧
      2 * (ms.length - r.counter) ≤ marks ls' + 1 := by
  obtain ⟨ls, hls, hrest⟩ := h.rest
  have hlen := h.offset_eq hrest
  have hcut : v.length - offset ms r.counter < m.text.length := by
    by_contra hle
    rw [List.drop_eq_nil_of_le (not_lt.mp hle), plain_nil.2] at hleft
    exact Bool.false_ne_true hleft
  obtain ⟨a, p, q, b, heq, htake, hdrop⟩ := Lines.cut '\n' m.lines hcut
  have hline : ∀ l ∈ a ++ (p ++ q) :: b, '\n' ∉ l := heq ▸ m.lines_line
  rw [List.forall_mem_append, List.forall_mem_cons, List.mem_append, not_or] at hline
  have hvisible := h.visible_next hv hm (by omega) hrest
  rw [List.take_append_of_le_length hcut.le, LogMsg.text, htake] at hvisible
  have hpos : r.pos + (unlines '\n' ls ++ (unlines '\n' a ++ p)).length = v.length := by
    rw [← hvisible, List.length_drop]
    omega
  have hnext := drop_linesLeft hm (by omega) hcut.le hdrop
  have hlines := linesLeft_line ms r.counter (List.forall_mem_cons.mpr ⟨hline.2.1.2, hline.2.2⟩)
  rw [LogMsg.text, hdrop] at hleft
  have hmarks := marks_linesLeft ms r.counter (one_le_marks hleft)
  rcases LogMsg.front heq with ⟨rfl, hheader⟩ | ⟨bs, rfl, hbs⟩
  · have hlong : 4 ≤ p.length := by
      have := congrArg List.length htake
      rw [List.length_take_of_le (by rw [← LogMsg.text]; exact hcut.le)] at this
      simp only [unlines_nil, List.nil_append] at this
      omega
    have hmsg : "%MSG".toList <+: p :=
      List.prefix_of_prefix_length_le m.header_msg (hheader ▸ List.prefix_append p q) hlong
    exact ⟨_, _, runOnce_header hls hline.2.1.1 (hasMsg_iff.mpr hmsg.isInfix) hvisible, rfl, hlines,
      hpos ▸ hnext, hmarks⟩
  · rw [unlines_cons, List.append_assoc, List.cons_append] at hvisible
    have hpos' : r.pos + (unlines '\n' ls).length + (m.header.length + 1 +
        (unlines '\n' bs ++ p).length) = v.length := by
      simp only [unlines_cons, List.length_append, List.length_cons] at hpos ⊢
      omega
    refine ⟨_, _, runOnce_found hls m.header_line m.header_hasMsg hbs (.cut hline.2.1.1) hvisible,
      rfl, hlines, ?_, hmarks⟩
    rw [hpos', hnext]

/-- More messages are emitted than there are if one iteration shows `%MSG` of a header and leaves a
`%MSG` of its message. -/
theorem emitted_more {i : ℕ} (hgrow : Grows (logText ms) looks)
    (hclear : ∀ n < i, ∀ r, after lib filename looks n = some r → Clear ms r.counter (looks n))
    (hi : after lib filename looks i = some r) (hm : ms[r.counter]? = some m)
    (hseen : offset ms r.counter + 4 ≤ (looks i).length)
    (hleft : hasMsg (m.text.drop ((looks i).length - offset ms r.counter)) = true)
    (hall : ∀ j > i, looks j = logText ms) :
    ∃ N, ∀ n ≥ N, ∃ r', after lib filename looks n = some r' ∧ ms.length < r'.emitted.length := by
  obtain ⟨r₀, hr₀, hbetween, -⟩ := after_between hgrow hclear
  obtain rfl : r₀ = r := Option.some.inj (hr₀.symm.trans hi)
  have hlt := (List.getElem?_eq_some_iff.mp hm).1
  obtain ⟨r', ls, hrun, hcounter, hls, hrest, hmarks⟩ :=
    hbetween.unclear (hgrow.visible i) hm hseen hleft
  have hnext : after lib filename looks (i + 1) = some r' := by
    rw [after, hi]
    exact hrun
  refine ⟨i + 1 + marks ls, fun n hn => ?_⟩
  obtain ⟨j, rfl⟩ := Nat.exists_eq_add_of_le (show i + 1 ≤ n by omega)
  obtain ⟨r'', ls', hr'', -, -, hmarks', hcounter'⟩ := after_marks hnext hall hls hrest j
  obtain ⟨msgs, hemitted, hcounted⟩ := after_emits (Nat.zero_le _) rfl hr''
  refine ⟨r'', hr'', ?_⟩
  have hlen := congrArg List.length hemitted
  simp only [List.nil_append, zero_add] at hlen hcounted
  omega

/-- After a line with `%MSG` a message that follows is taken for the end of an empty body. -/
theorem body_nil (ms : List LogMsg) : ∃ n, Body [] (logText ms) n := by
  rcases ms with _ | ⟨m, ms⟩
  · exact ⟨_, .cut (p := []) (by simp)⟩
  · have htext : logText (m :: ms) = unlines '\n' ([] ++ [m.header]) ++
        (unlines '\n' (m.body ++ [m.closing]) ++ logText ms) := by
      simp [logText, LogMsg.text, LogMsg.lines]
    rw [htext]
    exact ⟨_, .closed m.header_line m.header_hasMsg⟩

/-- An iteration that shows a part of `%MSG` of a header loses the header: the next message is read
from the line that closes this one. -/
theorem Between.lost (h : Between lib filename ms r) (hv : v <+: logText ms)
    (hm : ms[r.counter]? = some m) (hstart : offset ms r.counter < v.length)
    (hshort : v.length < offset ms r.counter + 4)
    (hone : hasMsg m.header.tail = false) :
    ∃ r' r'', runOnce lib filename v r = some r' ∧
      runOnce lib filename (logText ms) r' = some r'' ∧ r''.emitted =
        r.emitted ++ [toMsg lib filename r.counter (readHeader lib m.closing) []] := by
  obtain ⟨ls, hls, hrest⟩ := h.rest
  have hlen := h.offset_eq hrest
  have hheader : 4 ≤ m.header.length := m.header_msg.length_le
  obtain ⟨d, hd⟩ : ∃ d, v.length = offset ms r.counter + (d + 1) :=
    Nat.exists_eq_add_of_lt hstart
  have hcut : v.length - offset ms r.counter = d + 1 := by omega
  have hseen : Plain (m.header.take (d + 1)) := by
    refine ⟨fun hmem => m.header_line (List.mem_of_mem_take hmem), ?_⟩
    rw [Bool.eq_false_iff]
    intro hmsg
    have hle := (hasMsg_iff.mp hmsg).length_le
    have hfour : "%MSG".toList.length = 4 := rfl
    rw [List.length_take] at hle
    omega
  have hleft : Plain (m.header.drop (d + 1)) := by
    refine ⟨fun hmem => m.header_line (List.mem_of_mem_drop hmem), ?_⟩
    rw [← List.drop_tail]
    exact hasMsg_of_infix (List.drop_suffix d _).isInfix hone
  have hvisible := h.visible_next hv hm hstart.le hrest
  rw [hcut, m.text_eq, List.append_assoc, List.take_append_of_le_length (by omega)] at hvisible
  have hpos : r.pos + (unlines '\n' ls ++ m.header.take (d + 1)).length = v.length := by
    rw [← hvisible, List.length_drop]
    omega
  have hnext : (logText ms).drop v.length = unlines '\n' (m.header.drop (d + 1) :: m.body) ++
      (m.closing ++ '\n' :: logText (ms.drop (r.counter + 1))) := by
    rw [drop_after hm hstart.le, hcut, m.text_eq, List.append_assoc,
      List.drop_append_of_le_length (by omega)]
    simp
  obtain ⟨n, hbody⟩ := body_nil (ms.drop (r.counter + 1))
  refine ⟨_, _, runOnce_plain hls hseen hvisible,
    runOnce_found (List.forall_mem_cons.mpr ⟨hleft, m.body_plain⟩) m.closing_line m.closing_hasMsg
      (by simp) hbody ?_, rfl⟩
  · rw [hpos, hnext]

/-- In a run with one iteration that is not clear, after which the whole log is visible, something
else is emitted, unless a line that closes a message reads like its header. -/
theorem emitted_ne {i : ℕ} (hgrow : Grows (logText ms) looks)
    (hclear : ∀ n < i, ∀ r, after lib filename looks n = some r → Clear ms r.counter (looks n))
    (hi : after lib filename looks i = some r) (hunclear : ¬Clear ms r.counter (looks i))
    (hall : ∀ j > i, looks j = logText ms) (hone : ∀ m ∈ ms, hasMsg m.header.tail = false)
    (hclosing : ∀ k, ∀ m ∈ ms, toMsg lib filename k (readHeader lib m.closing) [] ≠
      toMsg lib filename k (readHeader lib m.header) m.body.flatten) :
    ∃ N, ∀ n ≥ N, ∃ r', after lib filename looks n = some r' ∧
      r'.emitted ≠ messages lib filename ms := by
  obtain ⟨r₀, hr₀, hbetween, -⟩ := after_between hgrow hclear
  obtain rfl : r₀ = r := Option.some.inj (hr₀.symm.trans hi)
  simp only [Clear] at hunclear
  push Not at hunclear
  obtain ⟨m, hm, hstart, hleft⟩ := hunclear
  have hmem := List.mem_of_getElem? hm
  by_cases hseen : offset ms r₀.counter + 4 ≤ (looks i).length
  · obtain ⟨N, hN⟩ := emitted_more hgrow hclear hi hm hseen (by simpa using hleft) hall
    refine ⟨N, fun n hn => ?_⟩
    obtain ⟨r', hr', hmore⟩ := hN n hn
    refine ⟨r', hr', fun heq => ?_⟩
    rw [heq, messages, List.length_mapIdx] at hmore
    exact lt_irrefl _ hmore
  · obtain ⟨r', r'', hrun, hrun', hemitted⟩ :=
      hbetween.lost (hgrow.visible i) hm hstart (not_le.mp hseen) (hone m hmem)
    have hnext : after lib filename looks (i + 1 + 1) = some r'' := by
      rw [after, after, hi, hall (i + 1) (Nat.lt_succ_self i)]
      simp only [Option.bind_eq_bind, Option.bind_some, hrun]
      exact hrun'
    refine ⟨i + 1 + 1, fun n hn => ?_⟩
    obtain ⟨r₁, hr₁⟩ := after_ends lib filename looks n
    obtain ⟨msgs, hmsgs, -⟩ := after_emits hn hnext hr₁
    obtain ⟨before, hbefore, hcount⟩ := after_emits (Nat.zero_le i) rfl hi
    rw [List.nil_append] at hbefore
    simp only [zero_add] at hcount
    refine ⟨r₁, hr₁, fun heq => hclosing r₀.counter m hmem ?_⟩
    have hwritten := getElem?_messages lib filename hm
    rw [← heq, hmsgs, hemitted, hbefore, hcount, List.append_assoc,
      List.getElem?_append_right le_rfl, Nat.sub_self] at hwritten
    rw [hcount]
    exact Option.some.inj hwritten

/-! ## A log of one message -/

def busyHeader : Str := "%MSG-i Busy:  Reader 02-Jan-2020 03:04:05 CST  Run".toList

/-- What `metadata_1` matches of the lines of the log below. -/
def busyLib : LogLib Unit where
  metadata1 line :=
    if line = busyHeader then some {
      sev := "i".toList
      category := "Busy".toList
      application := "Reader".toList
      date := "02-Jan-2020 03:04:05".toList
      eventID := "Run".toList }
    else none
  strptime _ := id
  mktime _ := 1577955845
  tm := ()
  timestamp _ := "02-Jan-2020 03:04:05 CST".toList

theorem busy_header_line : '\n' ∉ busyHeader := by decide

theorem busy_header_msg : "%MSG".toList <+: busyHeader := by decide

theorem busy_body_plain : ∀ l ∈ ["on".toList], Plain l := by
  simp only [List.forall_mem_singleton]
  exact ⟨by decide, by decide⟩

theorem busy_closing_line : '\n' ∉ "%MSG".toList := by decide

def busy : LogMsg where
  header := busyHeader
  body := ["on".toList]
  closing := "%MSG".toList
  header_line := busy_header_line
  header_msg := busy_header_msg
  body_plain := busy_body_plain
  closing_line := busy_closing_line
  closing_msg := List.prefix_rfl

/-- The first `n` characters are visible at first, and then all. -/
def firstSees (n : ℕ) : ℕ → Str
  | 0 => busy.text.take n
  | _ + 1 => busy.text

theorem firstSees_grows (n : ℕ) : Grows (logText [busy]) (firstSees n) := by
  have hfull : logText [busy] = busy.text := by simp [logText]
  rw [hfull]
  refine ⟨fun i => ?_, fun i => ?_, 1, rfl⟩
  · rcases i with _ | i
    · exact List.take_prefix n _
    · exact List.prefix_rfl
  · rcases i with _ | i
    · exact List.take_prefix n _
    · exact List.prefix_rfl

/-- The closing line may be cut. -/
theorem emitted_eq_closing : ∃ N, ∀ n ≥ N, ∃ r r', after busyLib [] (firstSees 56) n = some r ∧
    after busyLib [] (fun _ => logText [busy]) n = some r' ∧ r.emitted = r'.emitted ∧
      r'.emitted = messages busyLib [] [busy] := by
  refine emitted_eq (firstSees_grows 56) fun n r hr => ?_
  rcases n with _ | n
  · obtain rfl : {} = r := Option.some.inj hr
    intro m hm
    obtain rfl : busy = m := Option.some.inj hm
    right
    decide
  · have hfull : firstSees 56 (n + 1) = logText [busy] := by simp [firstSees, logText]
    rw [hfull]
    exact clear_full _ _

/-- The body is lost if only the header is visible at first. -/
theorem emitted_header : Grows (logText [busy]) (firstSees 51) ∧
    ¬∃ N, ∀ n ≥ N, ∃ r r', after busyLib [] (firstSees 51) n = some r ∧
      after busyLib [] (fun _ => logText [busy]) n = some r' ∧ r.emitted = r'.emitted := by
  refine ⟨firstSees_grows 51, ?_⟩
  rintro ⟨N, hN⟩
  obtain ⟨r, r', hr, hr', heq⟩ := hN (N + 1) (Nat.le_succ N)
  have hcut : (after busyLib [] (firstSees 51) 1).map (·.emitted.map (·.msg)) = some [[]] := by
    decide
  have hwhole : (after busyLib [] (fun _ => logText [busy]) 1).map (·.emitted.map (·.msg)) =
      some ["on".toList] := by
    decide
  obtain ⟨r₀, hr₀, hmsg₀⟩ := Option.map_eq_some_iff.mp hcut
  obtain ⟨r₁, hr₁, hmsg₁⟩ := Option.map_eq_some_iff.mp hwhole
  obtain ⟨t₀, ht₀, -⟩ := after_emits (Nat.le_add_left 1 N) hr₀ hr
  obtain ⟨t₁, ht₁, -⟩ := after_emits (Nat.le_add_left 1 N) hr₁ hr'
  rw [ht₀, ht₁] at heq
  have hmsg := congrArg (List.map (·.msg)) heq
  rw [List.map_append, List.map_append, hmsg₀, hmsg₁] at hmsg
  simp at hmsg

end LogReader

end MfExtensions
