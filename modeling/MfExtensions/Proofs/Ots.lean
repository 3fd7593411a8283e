import Mathlib.Data.List.Count
import MfExtensions.Lib.Exec
import MfExtensions.Ots

/-!
# Format strings

A format string is a list of directives, each with an expansion of its own. `fillPrefix` prints
them in order but for two of them: the NUL behind a lone `%` takes its place, and `%m` goes on with
what the one before it has printed (`fillPrefix_expands_iff`). It throws where no character is left
of the message to look for a newline in (`fillPrefix_returns_iff`).
-/

namespace MfExtensions

namespace Elots

/-! ## Directives -/

inductive Directive
  | char (c : Char)
  /-- a `%` at the end -/
  | lone
  | percent (c : Char)
  deriving DecidableEq

def directives : Str → List Directive
  | [] => []
  | c :: cp =>
    if c ≠ '%' then .char c :: directives cp
    else
      match cp with
      | [] => [.lone]
      | d :: cp => .percent d :: directives cp

/-- A text without one newline at its start and one at its end. -/
def trimmed (s : Str) : Str :=
  let s := if s.head? = some '\n' then s.tail else s
  if s.getLast? = some '\n' then s.dropLast else s

/-- The directives that print something of a message. -/
def letters : Str := "AadfhLNPrsTu".toList

variable (mf : MfLib) (past : Str) (e : ErrorObj) (s : Elots)

/-- What a directive stands for, `text` being the text of the message. -/
def Directive.expansion (text : Str) : Directive → Str
  | .char c => [c]
  | .lone => ['%']
  | .percent c =>
    if c = 'm' then trimmed text
    else if c = '%' then ['%']
    else if c ∈ letters then field mf past e s c
    else ['%', c]

/-- The directives of the format one after the other, and the text if none of them is `%m`. -/
def expanded : Str :=
  let ds := directives (cStr s.formatString)
  let text := e.items.flatten
  ds.flatMap (Directive.expansion mf past e s text) ++
    if .percent 'm' ∈ ds then [] else trimmed text

variable {mf past e s} {text : Str} {p q : Printing} {d : Directive} {ds : List Directive}

theorem expansion_percent {c : Char} (hc : c ≠ 'm') :
    Directive.expansion mf past e s text (.percent c) = field mf past e s c := by
  rw [Directive.expansion, if_neg hc]
  split_ifs with hpercent hmem
  · rw [hpercent]
    rfl
  · rfl
  · unfold field
    split <;> first | rfl | exact absurd (by decide) hmem | exact absurd rfl hpercent

/-! ## Newlines -/

theorem compareNewline_zero (t : Str) :
    compareNewline 0 t = .ok (decide (t.head? = some '\n')) := by
  rw [compareNewline, if_neg (Nat.not_lt_zero _)]
  cases t <;> simp

theorem lastPos_concat (t : Str) (c : Char) : lastPos (t ++ [c]) = t.length := by
  simp [lastPos]

theorem compareNewline_last (t : Str) (c : Char) :
    compareNewline (lastPos (t ++ [c])) (t ++ [c]) = .ok (decide (c = '\n')) := by
  rw [lastPos_concat, compareNewline, if_neg (by simp)]
  simp

theorem eraseIdx_last (t : Str) (c : Char) : (t ++ [c]).eraseIdx (lastPos (t ++ [c])) = t := by
  rw [lastPos_concat, List.eraseIdx_append_of_length_le le_rfl]
  simp

theorem trimLast_eq (u : Str) :
    (compareNewline (lastPos u) u >>= fun last =>
      pure (if last = true then u.eraseIdx (lastPos u) else u)) =
        if u = [] then .error .outOfRange
        else .ok (if u.getLast? = some '\n' then u.dropLast else u) := by
  rcases List.eq_nil_or_concat' u with rfl | ⟨t, c, rfl⟩
  · rfl
  · rw [compareNewline_last, eraseIdx_last, if_neg (by simp)]
    by_cases hc : c = '\n' <;> simp [hc, bind, Except.bind, pure, Except.pure]

/-- Looking for a newline throws if nothing is left. -/
theorem trimNewlines_eq (t : Str) :
    trimNewlines t = if t = [] ∨ t = ['\n'] then .error .outOfRange else .ok (trimmed t) := by
  have hleft : (if t.head? = some '\n' then t.tail else t) = [] ↔ t = [] ∨ t = ['\n'] := by
    rcases t with _ | ⟨c, t⟩
    · simp
    · by_cases hc : c = '\n' <;> simp [hc]
  have hfirst : (if (decide (t.head? = some '\n')) = true then t.eraseIdx 0 else t) =
      if t.head? = some '\n' then t.tail else t := by
    simp
  simp only [trimmed, ← hleft]
  rw [trimNewlines, compareNewline_zero, ← hfirst]
  exact trimLast_eq _

/-! ## The loop -/

theorem directives_char {c : Char} {cp : Str} (hc : c ≠ '%') :
    directives (c :: cp) = .char c :: directives cp := by
  cases cp <;> simp [directives, hc]

theorem printLoop_char {c : Char} {cp : Str} (hc : c ≠ '%') :
    printLoop mf past e s (c :: cp) p =
      printLoop mf past e s cp { p with oss := p.oss ++ [c] } := by
  cases cp <;> simp [printLoop, hc]

/-- A lone `%` is the last directive. -/
theorem lone_last {cp : Str} (h : .lone ∈ directives cp) :
    ∃ ds, .lone ∉ ds ∧ directives cp = ds ++ [.lone] := by
  induction cp using directives.induct with
  | case1 => simp [directives] at h
  | case2 c cp hc ih =>
    rw [directives_char hc, List.mem_cons] at h
    obtain ⟨ds, hds, heq⟩ := ih (h.resolve_left (by simp))
    exact ⟨.char c :: ds, by simp [hds], by rw [directives_char hc, heq]; rfl⟩
  | case3 c hc => exact ⟨[], by simp, by rw [directives, if_neg hc]; rfl⟩
  | case4 c hc d cp ih =>
    rw [directives, if_neg hc, List.mem_cons] at h
    obtain ⟨ds, hds, heq⟩ := ih (h.resolve_left (by simp))
    exact ⟨.percent d :: ds, by simp [hds], by rw [directives, if_neg hc]; simp [heq]⟩

/-- What is printed for a directive when `%m` goes on from `o`. -/
def prints (mf : MfLib) (past : Str) (e : ErrorObj) (s : Elots) (o : Str) : Directive → Str
  | .char c => [c]
  | .lone => [Char.ofNat 0]
  | .percent c => if c = 'm' then trimmed (o ++ e.items.flatten) else field mf past e s c

/-- Where the next `%m` goes on from. -/
def carried (e : ErrorObj) (o : Str) (d : Directive) : Str :=
  if d = .percent 'm' then trimmed (o ++ e.items.flatten) else o

def step (mf : MfLib) (past : Str) (e : ErrorObj) (s : Elots) (p : Printing) (d : Directive) :
    Except StringErr Printing :=
  if d = .percent 'm' ∧ p.ossstr ++ e.items.flatten = ['\n'] then .error .outOfRange
  else .ok {
    oss := p.oss ++ prints mf past e s p.ossstr d
    msgPrinted := p.msgPrinted || decide (d = .percent 'm')
    ossstr := carried e p.ossstr d }

theorem trimmed_nil : trimmed [] = [] := rfl

theorem printMessage_eq : printMessage e p = step mf past e s p (.percent 'm') := by
  rw [printMessage]
  by_cases hnil : p.ossstr ++ e.items.flatten = []
  · simp [step, prints, carried, hnil, trimmed_nil]
  · simp only [List.isEmpty_iff, hnil, if_false, trimNewlines_eq, false_or]
    by_cases hline : p.ossstr ++ e.items.flatten = ['\n']
    · simp [step, hline, bind, Except.bind]
    · simp [step, prints, carried, hline, bind, Except.bind, pure, Except.pure]

theorem printDirective_eq (c : Char) :
    printDirective mf past e s c p = step mf past e s p (.percent c) := by
  rw [printDirective]
  by_cases hc : c = 'm'
  · rw [if_pos hc, hc, printMessage_eq]
  · simp [step, prints, carried, hc]

theorem printLoop_eq (cp : Str) (p : Printing) :
    printLoop mf past e s cp p = (directives cp).foldlM (step mf past e s) p := by
  induction cp using directives.induct generalizing p with
  | case1 => rfl
  | case2 c cp hc ih =>
    rw [printLoop_char hc, directives_char hc, ih, List.foldlM_cons]
    simp [step, prints, carried, bind, Except.bind]
  | case3 c hc =>
    rw [printLoop, directives, if_neg hc, if_neg hc, List.foldlM_cons]
    simp [step, prints, carried, bind, Except.bind, pure, Except.pure]
  | case4 c hc d cp ih =>
    rw [printLoop, directives, if_neg hc, if_neg hc, List.foldlM_cons, ← printDirective_eq]
    simp only [ih]

/-- What is printed for the directives when the first `%m` goes on from `o`. -/
def output (mf : MfLib) (past : Str) (e : ErrorObj) (s : Elots) : Str → List Directive → Str
  | _, [] => []
  | o, d :: ds => prints mf past e s o d ++ output mf past e s (carried e o d) ds

/-- The loop ends if the text of the message is more than a newline, or not asked for. -/
theorem foldlM_step (htext : .percent 'm' ∈ ds →
      e.items.flatten ≠ ['\n'] ∧ (e.items.flatten = [] → p.ossstr = [])) :
    ∃ o, ds.foldlM (step mf past e s) p = .ok {
        oss := p.oss ++ output mf past e s p.ossstr ds
        msgPrinted := p.msgPrinted || decide (.percent 'm' ∈ ds)
        ossstr := o } ∧ (.percent 'm' ∉ ds → o = p.ossstr) := by
  induction ds generalizing p with
  | nil => exact ⟨p.ossstr, by simp [output, pure, Except.pure], fun _ => rfl⟩
  | cons d ds ih =>
    have hstep : step mf past e s p d = .ok {
        oss := p.oss ++ prints mf past e s p.ossstr d
        msgPrinted := p.msgPrinted || decide (d = .percent 'm')
        ossstr := carried e p.ossstr d } := by
      rw [step, if_neg]
      rintro ⟨hd, hline⟩
      obtain ⟨hne, hnil⟩ := htext (by simp [hd])
      rcases List.append_eq_singleton_iff.mp hline with h | h
      · exact hne h.2
      · rw [hnil h.2] at h
        simp at h
    rw [List.foldlM_cons, hstep]
    obtain ⟨o, ho, hkeep⟩ := ih (p := {
        oss := p.oss ++ prints mf past e s p.ossstr d
        msgPrinted := p.msgPrinted || decide (d = .percent 'm')
        ossstr := carried e p.ossstr d }) (by
      intro hm
      obtain ⟨hne, hnil⟩ := htext (List.mem_cons_of_mem _ hm)
      refine ⟨hne, fun h => ?_⟩
      simp [carried, hnil h, h, trimmed_nil])
    refine ⟨o, ?_, fun hm => ?_⟩
    · simp only [bind, Except.bind, ho, output, List.append_assoc, Bool.or_assoc, List.mem_cons,
        Bool.decide_or]
      simp only [eq_comm]
    · rw [List.mem_cons, not_or] at hm
      rw [hkeep hm.2]
      simp [carried, Ne.symm hm.1]

/-! ## Throwing -/

/-- A message that is one newline ends the loop at the first `%m`. -/
theorem foldlM_step_newline (htext : e.items.flatten = ['\n']) (hp : p.ossstr = [])
    (hm : .percent 'm' ∈ ds) : ds.foldlM (step mf past e s) p = .error .outOfRange := by
  obtain ⟨pre, post, rfl, hpre⟩ := List.eq_append_cons_of_mem hm
  obtain ⟨o, ho, hkeep⟩ := @foldlM_step mf past e s p pre fun h => absurd h hpre
  rw [List.foldlM_append, ho, hkeep hpre, hp]
  simp [List.foldlM_cons, step, htext, bind, Except.bind]

/-- What `fillPrefix` returns, and where it throws. -/
theorem fillPrefix_eq : fillPrefix mf past e s =
    let ds := directives (cStr s.formatString)
    let text := e.items.flatten
    if text = ['\n'] ∨ text = [] ∧ .percent 'm' ∉ ds then .error .outOfRange
    else .ok (output mf past e s [] ds ++ if .percent 'm' ∈ ds then [] else trimmed text) := by
  simp only [fillPrefix, printLoop_eq]
  by_cases hm : .percent 'm' ∈ directives (cStr s.formatString)
  · by_cases hline : e.items.flatten = ['\n']
    · rw [foldlM_step_newline hline rfl hm]
      simp [hline, bind, Except.bind]
    · obtain ⟨o, ho, -⟩ := @foldlM_step mf past e s {} _ fun _ => ⟨hline, fun _ => rfl⟩
      rw [ho]
      simp [hline, hm, bind, Except.bind, pure, Except.pure]
  · obtain ⟨o, ho, hkeep⟩ := @foldlM_step mf past e s {} _ fun h => absurd h hm
    rw [ho, hkeep hm]
    simp only [bind, Except.bind, hm, decide_false, Bool.or_false, Bool.false_eq_true, if_false,
      List.nil_append, trimNewlines_eq, not_false_eq_true, and_true]
    by_cases htext : e.items.flatten = [] ∨ e.items.flatten = ['\n']
    · rw [if_pos htext, if_pos htext.symm]
    · rw [if_neg htext, if_neg (fun h => htext h.symm)]
      rfl

/-- `fillPrefix` throws on a message that is one newline, and on an empty one if no `%m` asks for
it. -/
theorem fillPrefix_returns_iff :
    (∃ t, fillPrefix mf past e s = .ok t) ↔
      e.items.flatten ≠ ['\n'] ∧
        (e.items.flatten = [] → .percent 'm' ∈ directives (cStr s.formatString)) := by
  simp only [fillPrefix_eq]
  by_cases hthrows : e.items.flatten = ['\n'] ∨
      e.items.flatten = [] ∧ .percent 'm' ∉ directives (cStr s.formatString)
  · rw [if_pos hthrows]
    simp only [reduceCtorEq, exists_false, false_iff, not_and]
    rintro hne hm
    rcases hthrows with h | h
    · exact hne h
    · exact h.2 (hm h.1)
  · rw [if_neg hthrows]
    push Not at hthrows
    exact ⟨fun _ => hthrows, fun _ => ⟨_, rfl⟩⟩

def infoMf : MfLib where
  timestamp _ := "02-Jan-2020 03:04:05 UTC".toList
  getName _ := "INFO".toList
  iteration := []

def infoObj (items : List Str) : ErrorObj where
  timestamp := 0
  severity := .info
  id := "Busy".toList
  module := "Reader".toList
  filename := "a.cc".toList
  lineNumber := 12
  items

def formatted (format : String) : Elots where
  pid := 7
  hostname := "node".toList
  hostaddr := "10.0.0.1".toList
  app := "boardreader".toList
  formatString := format.toList
  filenameDelimit := []

/-- An informational message by a destination of the given format. -/
def printed (text format : String) : Except StringErr Str :=
  fillPrefix infoMf [] (infoObj [text.toList]) (formatted format)

theorem fillPrefix_newline :
    printed "\n" "%m" = .error .outOfRange ∧ printed "" "%h" = .error .outOfRange ∧
      printed "" "%m" = .ok [] := by
  decide

/-! ## Expanding -/

theorem prints_eq {o : Str} (hd : d ≠ .lone)
    (ho : d = .percent 'm' → trimmed (o ++ e.items.flatten) = trimmed e.items.flatten) :
    prints mf past e s o d = d.expansion mf past e s e.items.flatten := by
  rcases d with c | - | c
  · rfl
  · exact absurd rfl hd
  · by_cases hc : c = 'm'
    · subst hc
      simp [prints, Directive.expansion, ho]
    · rw [expansion_percent hc]
      simp [prints, hc]

/-- Without `%m` the expansions are printed. -/
theorem output_plain {o : Str} (hlone : .lone ∉ ds) (hm : .percent 'm' ∉ ds) :
    output mf past e s o ds = ds.flatMap (Directive.expansion mf past e s e.items.flatten) := by
  induction ds generalizing o with
  | nil => rfl
  | cons d ds ih =>
    rw [List.mem_cons, not_or] at hlone hm
    rw [output, ih hlone.2 hm.2, prints_eq (Ne.symm hlone.1) (fun h => absurd h.symm hm.1),
      List.flatMap_cons]

/-- Nothing is carried along of a message of which nothing is left. -/
theorem output_blank (hlone : .lone ∉ ds) (htext : trimmed e.items.flatten = []) :
    output mf past e s [] ds = ds.flatMap (Directive.expansion mf past e s e.items.flatten) := by
  induction ds with
  | nil => rfl
  | cons d ds ih =>
    rw [List.mem_cons, not_or] at hlone
    have hcarried : carried e [] d = [] := by simp [carried, htext]
    rw [output, hcarried, ih hlone.2, prints_eq (Ne.symm hlone.1) (fun _ => rfl),
      List.flatMap_cons]

theorem output_append {o : Str} {pre post : List Directive} (hm : .percent 'm' ∉ pre) :
    output mf past e s o (pre ++ post) =
      output mf past e s o pre ++ output mf past e s o post := by
  induction pre with
  | nil => rfl
  | cons d pre ih =>
    rw [List.mem_cons, not_or] at hm
    have hcarried : carried e o d = o := by simp [carried, Ne.symm hm.1]
    rw [List.cons_append, output, output, hcarried, ih hm.2, List.append_assoc]

theorem output_concat_lone {o : Str} :
    output mf past e s o (ds ++ [.lone]) = output mf past e s o ds ++ [Char.ofNat 0] := by
  induction ds generalizing o with
  | nil => rfl
  | cons d ds ih => rw [List.cons_append, output, output, ih, List.append_assoc]

/-! ## The weight of a text

A newline counts less than another character, so that a text which grows by more than two newlines
and loses two is heavier than before. -/

def weight (t : Str) : ℕ := t.length + 2 * t.countP (· ≠ '\n')

@[simp] theorem weight_nil : weight [] = 0 := rfl

@[simp] theorem weight_append (t u : Str) : weight (t ++ u) = weight t + weight u := by
  simp only [weight, List.length_append, List.countP_append]
  omega

theorem weight_trimmed (t : Str) :
    weight (trimmed t) ≤ weight t ∧ weight t ≤ weight (trimmed t) + 2 := by
  have hfirst : ∀ u : Str, weight (if u.head? = some '\n' then u.tail else u) ≤ weight u ∧
      weight u ≤ weight (if u.head? = some '\n' then u.tail else u) + 1 := by
    rintro (_ | ⟨c, u⟩)
    · simp
    · by_cases hc : c = '\n' <;> simp [hc, weight]
      omega
  have hlast : ∀ u : Str, weight (if u.getLast? = some '\n' then u.dropLast else u) ≤ weight u ∧
      weight u ≤ weight (if u.getLast? = some '\n' then u.dropLast else u) + 1 := by
    intro u
    rcases List.eq_nil_or_concat' u with rfl | ⟨u, c, rfl⟩
    · simp
    · by_cases hc : c = '\n' <;> simp [hc, weight]
      omega
  have h₁ := hfirst t
  have h₂ := hlast (if t.head? = some '\n' then t.tail else t)
  rw [trimmed]
  omega

theorem three_le_weight {t : Str} (hnil : t ≠ []) (hone : t ≠ ['\n']) (htwo : t ≠ ['\n', '\n']) :
    3 ≤ weight t := by
  rcases t with _ | ⟨a, _ | ⟨b, _ | ⟨c, t⟩⟩⟩
  · exact absurd rfl hnil
  · by_cases ha : a = '\n'
    · simp [ha] at hone
    · simp [weight, ha]
  · by_cases ha : a = '\n' <;> by_cases hb : b = '\n' <;> simp [weight, ha, hb]
    simp [ha, hb] at htwo
  · simp only [weight, List.length_cons]
    omega

/-- Each `%m` after the first prints more than the text. -/
theorem weight_output {o : Str} (hlone : .lone ∉ ds) (htext : 3 ≤ weight e.items.flatten)
    (ho : weight (trimmed e.items.flatten) ≤ weight o) :
    weight (ds.flatMap (Directive.expansion mf past e s e.items.flatten)) +
        ds.count (.percent 'm') ≤ weight (output mf past e s o ds) := by
  induction ds generalizing o with
  | nil => simp [output]
  | cons d ds ih =>
    rw [List.mem_cons, not_or] at hlone
    rw [List.flatMap_cons, output, weight_append, weight_append]
    by_cases hd : d = .percent 'm'
    · have hgrown := weight_trimmed (o ++ e.items.flatten)
      rw [weight_append] at hgrown
      have hcarried : carried e o d = trimmed (o ++ e.items.flatten) := if_pos hd
      have hrest := ih (o := carried e o d) hlone.2 (by rw [hcarried]; omega)
      subst hd
      simp only [prints, Directive.expansion, if_true, List.count_cons_self]
      omega
    · have hcarried : carried e o d = o := if_neg hd
      rw [prints_eq (Ne.symm hlone.1) (fun h => absurd h hd), hcarried,
        List.count_cons_of_ne hd]
      have hrest := ih hlone.2 ho
      omega

/-- The formats and messages for which the directives are expanded one by one. -/
def Expands (e : ErrorObj) (s : Elots) : Prop :=
  let ds := directives (cStr s.formatString)
  let text := e.items.flatten
  .lone ∉ ds ∧ text ≠ ['\n'] ∧ (text = [] → .percent 'm' ∈ ds) ∧
    (2 ≤ ds.count (.percent 'm') → text = [] ∨ text = ['\n', '\n'])

/-- A format with a `%` at its end prints a NUL. -/
theorem output_ne_of_lone {o : Str} {cp : Str} (hlone : .lone ∈ directives cp) :
    output mf past e s o (directives cp) ≠
      (directives cp).flatMap (Directive.expansion mf past e s e.items.flatten) := by
  obtain ⟨ds, hds, heq⟩ := lone_last hlone
  intro h
  rw [heq, output_concat_lone, List.flatMap_append] at h
  have hlast := congrArg List.getLast? h
  simp [Directive.expansion] at hlast

theorem output_eq_iff (hlone : .lone ∉ ds) (hline : e.items.flatten ≠ ['\n']) :
    output mf past e s [] ds = ds.flatMap (Directive.expansion mf past e s e.items.flatten) ↔
      (2 ≤ ds.count (.percent 'm') → e.items.flatten = [] ∨ e.items.flatten = ['\n', '\n']) := by
  by_cases hm : .percent 'm' ∈ ds
  swap
  · simp [output_plain hlone hm, List.count_eq_zero_of_not_mem hm]
  by_cases hblank : e.items.flatten = [] ∨ e.items.flatten = ['\n', '\n']
  · refine ⟨fun _ _ => hblank, fun _ => output_blank hlone ?_⟩
    rcases hblank with h | h <;> rw [h] <;> rfl
  obtain ⟨pre, post, rfl, hpre⟩ := List.eq_append_cons_of_mem hm
  obtain ⟨hnil, htwo⟩ := not_or.mp hblank
  rw [List.mem_append, List.mem_cons, not_or, not_or] at hlone
  have hcarried : carried e [] (.percent 'm') = trimmed e.items.flatten := by simp [carried]
  rw [output_append hpre, output, hcarried, output_plain hlone.1 hpre,
    prints_eq (by simp) (fun _ => rfl), List.flatMap_append, List.flatMap_cons, List.count_append,
    List.count_eq_zero_of_not_mem hpre, List.count_cons_self]
  constructor
  · intro h hcount
    have hrest := List.append_cancel_left (List.append_cancel_left h)
    have hweight := @weight_output mf past e s post
      (trimmed e.items.flatten) hlone.2.2 (three_le_weight hnil hline htwo) le_rfl
    rw [hrest] at hweight
    omega
  · intro hcount
    have hpost : .percent 'm' ∉ post := by
      rw [← List.count_pos_iff]
      intro h
      exact hblank (hcount (by omega))
    rw [output_plain hlone.2.2 hpost]

/-- The directives are expanded one by one if and only if no `%` ends the format, the message is
not one newline, an empty one is asked for, and one of which something is left is asked for once. -/
theorem fillPrefix_expands_iff :
    fillPrefix mf past e s = .ok (expanded mf past e s) ↔ Expands e s := by
  simp only [fillPrefix_eq, expanded, Expands]
  by_cases hthrows : e.items.flatten = ['\n'] ∨
      e.items.flatten = [] ∧ .percent 'm' ∉ directives (cStr s.formatString)
  · rw [if_pos hthrows]
    simp only [reduceCtorEq, false_iff]
    rintro ⟨-, hne, hm, -⟩
    rcases hthrows with h | h
    · exact hne h
    · exact h.2 (hm h.1)
  · rw [if_neg hthrows, Except.ok.injEq, List.append_cancel_right_eq]
    push Not at hthrows
    by_cases hlone : .lone ∈ directives (cStr s.formatString)
    · exact iff_of_false (output_ne_of_lone hlone) (fun h => h.1 hlone)
    · rw [output_eq_iff hlone hthrows.1]
      exact ⟨fun h => ⟨hlone, hthrows.1, hthrows.2, h⟩, fun h => h.2.2.2⟩

theorem fillPrefix_twice :
    printed "x" "%m%m" = .ok "xxx".toList ∧
      expanded infoMf [] (infoObj ["x".toList]) (formatted "%m%m") = "xx".toList ∧
      printed "x" "%m%" = .ok ['x', Char.ofNat 0] ∧
      expanded infoMf [] (infoObj ["x".toList]) (formatted "%m%") = "x%".toList := by
  decide

end Elots

end MfExtensions
