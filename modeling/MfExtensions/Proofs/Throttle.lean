import MfExtensions.Lib.Machine
import MfExtensions.ThrottleRun

/-!
# How much a throttle lets through

The windows of a throttle start more than the timespan after one another, so where the seconds do
not decrease no interval of that length meets three of them (`Spread.two_windows`), and each lets
through as many messages as the limit says. A message that is earlier than the window it is counted
in takes a place there all the same: where there is none, what is throttled has as many messages
close to it as the limit says (`limited_has_earlier`).
-/

namespace MfExtensions

open Machine

namespace ThrottleRun

variable {expr : Regex} {limit timespan sec : ℤ} {name : Str} {a : ThrottleAct}
  {s s' : ThrottleRun}

/-! ## One message -/

theorem reachLimit_unexamined {x : Throttle} (h : x.examines name = false) :
    x.reachLimit name sec = (false, x) := by
  unfold Throttle.examines at h
  unfold Throttle.reachLimit
  cases hu : x.inUse with
  | false => simp
  | true => simp_all

/-- The window a message examined is counted in, and the number of messages in it so far. -/
theorem reachLimit_examined {x : Throttle} (h : x.examines name = true) (hlimit : 0 < x.limit)
    (htimespan : 0 < x.timespan) : x.reachLimit name sec =
      if x.timespan < sec - x.lastWindowStart then
        (false, { x with lastWindowStart := sec, count := 1 })
      else (decide (x.limit < x.count + 1), { x with count := x.count + 1 }) := by
  unfold Throttle.examines at h
  rw [Bool.and_eq_true] at h
  unfold Throttle.reachLimit
  have hmatch : (x.expr.regexMatch (String.ofList name)).isNone = false := by
    rw [Option.isNone_eq_false_iff]
    exact h.2
  simp only [h.1, hmatch, Bool.not_true, Bool.false_eq_true, if_false]
  rw [if_neg (by omega), if_neg (by omega), if_neg (by omega)]
  split_ifs
  · simpa using (show 1 ≤ x.limit by omega)
  · rfl

/-- The throttle is one with this limit and timespan. -/
def Bounded (limit timespan : ℤ) (s : ThrottleRun) : Prop :=
  s.throttle.limit = limit ∧ s.throttle.timespan = timespan

/-- What a message examined does: it opens a window, or is counted in the one there is. -/
inductive Counts (limit timespan sec : ℤ) (s s' : ThrottleRun) : Prop
  | opens (hlate : timespan < sec - s.throttle.lastWindowStart)
    (hstart : s'.throttle.lastWindowStart = sec) (hcount : s'.throttle.count = 1)
    (hexamined : s'.examined = s.examined ++ [⟨sec, sec, false⟩])
  | joins (hin : sec - s.throttle.lastWindowStart ≤ timespan)
    (hstart : s'.throttle.lastWindowStart = s.throttle.lastWindowStart)
    (hcount : s'.throttle.count = s.throttle.count + 1)
    (hexamined : s'.examined =
      s.examined ++ [⟨sec, s.throttle.lastWindowStart, decide (limit < s.throttle.count + 1)⟩])

/-- Nothing is examined. -/
structure Keeps (s s' : ThrottleRun) : Prop where
  start : s'.throttle.lastWindowStart = s.throttle.lastWindowStart
  count : s'.throttle.count = s.throttle.count
  examined : s'.examined = s.examined

theorem step_examined (sec : ℤ) (hlimit : 0 < s.throttle.limit)
    (htimespan : 0 < s.throttle.timespan) (hex : s.throttle.examines name = true) :
    ∃ s', step (.reachLimit name sec) s = some s' ∧
      Bounded s.throttle.limit s.throttle.timespan s' ∧
      Counts s.throttle.limit s.throttle.timespan sec s s' := by
  simp only [step]
  rw [if_pos hex, reachLimit_examined hex hlimit htimespan]
  split_ifs with hlate
  · exact ⟨_, rfl, ⟨rfl, rfl⟩, .opens hlate rfl rfl rfl⟩
  · exact ⟨_, rfl, ⟨rfl, rfl⟩, .joins (not_lt.1 hlate) rfl rfl rfl⟩

theorem step_cases (h : step a s = some s') (hs : Bounded limit timespan s) (hlimit : 0 < limit)
    (htimespan : 0 < timespan) : Bounded limit timespan s' ∧ (Keeps s s' ∨ ∃ name sec,
      a = .reachLimit name sec ∧ s.throttle.examines name = true ∧
        Counts limit timespan sec s s') := by
  obtain ⟨rfl, rfl⟩ := hs
  cases a with
  | use flag =>
    obtain rfl := Option.some_inj.1 h
    exact ⟨⟨rfl, rfl⟩, .inl ⟨rfl, rfl, rfl⟩⟩
  | reachLimit name sec =>
    by_cases hex : s.throttle.examines name = true
    · obtain ⟨s'', hstep, hs', hcounts⟩ := step_examined sec hlimit htimespan hex
      obtain rfl := Option.some_inj.1 (hstep.symm.trans h)
      exact ⟨hs', .inr ⟨name, sec, rfl, hex, hcounts⟩⟩
    · simp only [step, Option.some.injEq] at h
      subst h
      rw [if_neg hex, reachLimit_unexamined (by simpa using hex)]
      exact ⟨⟨rfl, rfl⟩, .inl ⟨rfl, rfl, by simp⟩⟩

/-! ## The windows -/

/-- The messages of a window. -/
def inWindow (w : ℤ) (s : ThrottleRun) : List Examined := s.examined.filter fun e => e.window = w

theorem inWindow_concat {e : Examined} (h : s'.examined = s.examined ++ [e]) (w : ℤ) :
    inWindow w s' = inWindow w s ++ if e.window = w then [e] else [] := by
  rw [inWindow, h, List.filter_append, ← inWindow, List.filter_singleton]
  simp

/-- What is counted is the messages of the window, and no window is later. -/
structure Windowed (timespan : ℤ) (s : ThrottleRun) : Prop where
  start : 0 ≤ s.throttle.lastWindowStart
  count : ((inWindow s.throttle.lastWindowStart s).length : ℤ) = s.throttle.count
  earlier : ∀ e ∈ s.examined, e.window ≤ s.throttle.lastWindowStart
  ends : ∀ e ∈ s.examined, e.sec ≤ e.window + timespan

theorem windowed_start : Windowed timespan (start expr limit timespan) :=
  ⟨le_rfl, rfl, by simp [start], by simp [start]⟩

theorem Windowed.keeps (h : Windowed timespan s) (hs : Keeps s s') : Windowed timespan s' := by
  refine ⟨hs.start ▸ h.start, ?_, ?_, hs.examined ▸ h.ends⟩
  · rw [hs.start, hs.count, ← h.count, inWindow, hs.examined, inWindow]
  · rw [hs.start, hs.examined]
    exact h.earlier

theorem Windowed.counts (h : Windowed timespan s) (htimespan : 0 < timespan)
    (hs : Counts limit timespan sec s s') : Windowed timespan s' := by
  have hnonneg := h.start
  cases hs with
  | opens hlate hstart hcount hexamined =>
    have hnone : inWindow sec s = [] := by
      refine List.filter_eq_nil_iff.2 fun e he => ?_
      have := h.earlier e he
      simp only [decide_eq_true_eq]
      omega
    refine ⟨by omega, ?_, ?_, ?_⟩
    · rw [hstart, hcount, inWindow_concat hexamined, hnone, if_pos rfl]
      rfl
    · rw [hstart, hexamined, List.forall_mem_append, List.forall_mem_singleton]
      refine ⟨fun e he => ?_, le_rfl⟩
      have := h.earlier e he
      omega
    · rw [hexamined, List.forall_mem_append, List.forall_mem_singleton]
      exact ⟨h.ends, by simp only; omega⟩
  | joins hin hstart hcount hexamined =>
    refine ⟨hstart ▸ h.start, ?_, ?_, ?_⟩
    · rw [hstart, hcount, ← h.count, inWindow_concat hexamined, if_pos rfl]
      simp
    · rw [hstart, hexamined, List.forall_mem_append, List.forall_mem_singleton]
      exact ⟨h.earlier, le_rfl⟩
    · rw [hexamined, List.forall_mem_append, List.forall_mem_singleton]
      exact ⟨h.ends, by simp only; omega⟩

/-- What holds at the start and is kept by messages that are examined holds in the run. -/
theorem run_windowed {ok : ThrottleAct → ThrottleRun → Prop} {I : ThrottleRun → Prop}
    (h : Machine.Run step ok (start expr limit timespan) s) (hlimit : 0 < limit)
    (htimespan : 0 < timespan) (hinit : I (start expr limit timespan))
    (hkeeps : ∀ s s', I s → Keeps s s' → I s')
    (hcounts : ∀ name sec s s', I s → Windowed timespan s → s.throttle.examines name = true →
      ok (.reachLimit name sec) s → Counts limit timespan sec s s' → I s') :
    Bounded limit timespan s ∧ Windowed timespan s ∧ I s := by
  refine h.invariant (I := fun s => Bounded limit timespan s ∧ Windowed timespan s ∧ I s)
    ⟨⟨rfl, rfl⟩, windowed_start, hinit⟩ ?_
  rintro a s s' ⟨hs, hw, hI⟩ hok hstep
  obtain ⟨hs', hquiet | ⟨name, sec, rfl, hex, hone⟩⟩ := step_cases hstep hs hlimit htimespan
  · exact ⟨hs', hw.keeps hquiet, hkeeps s s' hI hquiet⟩
  · exact ⟨hs', hw.counts htimespan hone, hcounts name sec s s' hI hw hex hok hone⟩

/-! ## Seconds that do not decrease -/

/-- The messages examined come in the order of their seconds. -/
def InOrder : ThrottleAct → ThrottleRun → Prop
  | .reachLimit name sec, s => s.throttle.examines name = true → ∀ e ∈ s.examined, e.sec ≤ sec
  | .use _, _ => True

/-- A message is of the window that starts at `w`, or of one before it. -/
def Until (timespan w : ℤ) (e : Examined) : Prop :=
  e.window = w ∨ e.window + timespan < w ∧ e.sec ≤ w

/-- The windows are more than the timespan apart, and each ends before the next starts. -/
structure Spread (timespan : ℤ) (s : ThrottleRun) : Prop where
  opened : ∀ e ∈ s.examined, e.window = 0 ∨ e.window ≤ e.sec
  nonneg : ∀ e ∈ s.examined, 0 ≤ e.window
  began : s.throttle.lastWindowStart = 0 ∨ ∃ e ∈ s.examined, e.sec = s.throttle.lastWindowStart
  soFar : ∀ e ∈ s.examined, Until timespan s.throttle.lastWindowStart e
  apart : s.examined.Pairwise fun e f => Until timespan f.window e

theorem spread_start : Spread timespan (start expr limit timespan) :=
  ⟨by simp [start], by simp [start], .inl rfl, by simp [start], List.Pairwise.nil⟩

theorem Spread.keeps (h : Spread timespan s) (hs : Keeps s s') : Spread timespan s' := by
  obtain ⟨hopened, hnonneg, hbegan, hsoFar, hapart⟩ := h
  rw [← hs.start] at hbegan hsoFar
  rw [← hs.examined] at hopened hnonneg hbegan hsoFar hapart
  exact ⟨hopened, hnonneg, hbegan, hsoFar, hapart⟩

/-- The message that comes is of the window there is now. -/
theorem pairwise_concat {l : List Examined} {x : Examined}
    (hl : l.Pairwise fun e f => Until timespan f.window e)
    (hx : ∀ e ∈ l, Until timespan x.window e) :
    (l ++ [x]).Pairwise fun e f => Until timespan f.window e := by
  refine List.pairwise_append.2 ⟨hl, List.pairwise_singleton _ _, fun e he f hf => ?_⟩
  rw [List.mem_singleton.1 hf]
  exact hx e he

theorem Spread.counts (h : Spread timespan s) (hw : Windowed timespan s) (htimespan : 0 < timespan)
    (horder : ∀ e ∈ s.examined, e.sec ≤ sec) (hs : Counts limit timespan sec s s') :
    Spread timespan s' := by
  have hstart₀ := hw.start
  cases hs with
  | opens hlate hstart hcount hexamined =>
    have hsoFar : ∀ e ∈ s.examined, Until timespan sec e := by
      intro e he
      have := horder e he
      have := hw.earlier e he
      right
      omega
    constructor
    · rw [hexamined, List.forall_mem_append, List.forall_mem_singleton]
      exact ⟨h.opened, .inr le_rfl⟩
    · rw [hexamined, List.forall_mem_append, List.forall_mem_singleton]
      exact ⟨h.nonneg, by simp only; omega⟩
    · rw [hexamined, hstart]
      exact .inr ⟨_, List.mem_append_right _ (List.mem_singleton_self _), rfl⟩
    · rw [hexamined, hstart, List.forall_mem_append, List.forall_mem_singleton]
      exact ⟨hsoFar, .inl rfl⟩
    · rw [hexamined]
      exact pairwise_concat h.apart hsoFar
  | joins hin hstart hcount hexamined =>
    constructor
    · rw [hexamined, List.forall_mem_append, List.forall_mem_singleton]
      refine ⟨h.opened, h.began.imp_right ?_⟩
      rintro ⟨e, he, hsec⟩
      exact hsec ▸ horder e he
    · rw [hexamined, List.forall_mem_append, List.forall_mem_singleton]
      exact ⟨h.nonneg, hstart₀⟩
    · rw [hexamined, hstart]
      refine h.began.imp_right ?_
      rintro ⟨e, he, hsec⟩
      exact ⟨e, List.mem_append_left _ he, hsec⟩
    · rw [hexamined, hstart, List.forall_mem_append, List.forall_mem_singleton]
      exact ⟨h.soFar, .inl rfl⟩
    · rw [hexamined]
      exact pairwise_concat h.apart h.soFar

/-- Messages within the timespan of each other are of two windows at most. -/
theorem Spread.two_windows (h : Spread timespan s) (a : ℤ)
    {l : List Examined} (hl : l.Sublist s.examined)
    (hsec : ∀ e ∈ l, a ≤ e.sec ∧ e.sec ≤ a + timespan) :
    ∃ w₁ w₂, ∀ e ∈ l, e.window = w₁ ∨ e.window = w₂ := by
  have happart := h.apart.sublist hl
  have hopened : ∀ e ∈ l, e.window = 0 ∨ e.window ≤ a + timespan := fun e he =>
    (h.opened e (hl.subset he)).imp_right fun hle => hle.trans (hsec e he).2
  have hnonneg : ∀ e ∈ l, 0 ≤ e.window := fun e he => h.nonneg e (hl.subset he)
  cases l with
  | nil => exact ⟨0, 0, by simp⟩
  | cons e l =>
    rw [List.forall_mem_cons] at hsec hopened hnonneg
    obtain ⟨he, hl⟩ := List.pairwise_cons.1 happart
    -- the first message is before the windows of those that are not of its window
    have hother : ∀ f ∈ l, f.window ≠ e.window → e.window + timespan < f.window ∧ a ≤ f.window := by
      intro f hf hne
      obtain ⟨hlt, hle⟩ := (he f hf).resolve_left (Ne.symm hne)
      exact ⟨hlt, hsec.1.1.trans hle⟩
    -- so no two of them have different windows
    have hsame : ∀ f ∈ l, ∀ g ∈ l, f.window ≠ e.window → Until timespan g.window f →
        g.window = f.window := by
      intro f hf g hg hf' hfg
      rcases hfg with heq | ⟨hlt, -⟩
      · exact heq.symm
      · have := hother f hf hf'
        have := hopened.2 g hg
        have := hnonneg.1
        omega
    by_cases hall : ∀ f ∈ l, f.window = e.window
    · exact ⟨e.window, e.window, by simpa using hall⟩
    · push Not at hall
      obtain ⟨f, hf, hne⟩ := hall
      refine ⟨e.window, f.window, List.forall_mem_cons.2 ⟨.inl rfl, fun g hg => ?_⟩⟩
      by_cases hge : g.window = e.window
      · exact .inl hge
      · have hor : Until timespan g.window f ∨ Until timespan f.window g :=
          List.Pairwise.forall_of_forall_of_flip
            (R := fun f g => Until timespan g.window f ∨ Until timespan f.window g)
            (fun _ _ => Or.inl (Or.inl rfl)) (hl.imp Or.inl) (hl.imp Or.inr) hf hg
        rcases hor with hfg | hgf
        · exact .inr (hsame f hf g hg hne hfg)
        · exact .inr (hsame g hg f hf hge hgf).symm

/-! ## What passes -/

/-- The messages that are let through. -/
def passed (s : ThrottleRun) : List Examined := s.examined.filter fun e => !e.limited

/-- No window lets through more than is counted in it, or than the limit. -/
structure Rationed (limit : ℤ) (s : ThrottleRun) : Prop where
  now : (((passed s).filter fun e => e.window = s.throttle.lastWindowStart).length : ℤ) ≤
    s.throttle.count
  windows : ∀ w, (((passed s).filter fun e => e.window = w).length : ℤ) ≤ limit

theorem passed_concat {e : Examined} (h : s'.examined = s.examined ++ [e]) :
    passed s' = passed s ++ if e.limited then [] else [e] := by
  rw [passed, h, List.filter_append, ← passed, List.filter_singleton]
  cases e.limited <;> rfl

theorem rationed_start (hlimit : 0 < limit) : Rationed limit (start expr limit timespan) :=
  ⟨le_rfl, fun _ => hlimit.le⟩

theorem Rationed.keeps (h : Rationed limit s) (hs : Keeps s s') : Rationed limit s' := by
  have hpassed : passed s' = passed s := by rw [passed, hs.examined, passed]
  constructor
  · rw [hpassed, hs.start, hs.count]
    exact h.now
  · rw [hpassed]
    exact h.windows

theorem Rationed.counts (h : Rationed limit s) (hw : Windowed timespan s) (htimespan : 0 < timespan)
    (hlimit : 0 < limit) (hs : Counts limit timespan sec s s') : Rationed limit s' := by
  have hstart₀ := hw.start
  cases hs with
  | opens hlate hstart hcount hexamined =>
    have hnone : (passed s).filter (fun e => e.window = sec) = [] := by
      refine List.filter_eq_nil_iff.2 fun e he => ?_
      have := hw.earlier e (List.mem_of_mem_filter he)
      simp only [decide_eq_true_eq]
      omega
    have hpassed : passed s' = passed s ++ [⟨sec, sec, false⟩] := passed_concat hexamined
    constructor
    · rw [hpassed, hstart, hcount, List.filter_append, hnone]
      simp
    · intro w
      rw [hpassed, List.filter_append, List.filter_singleton]
      by_cases hsec : sec = w
      · subst hsec
        rw [hnone]
        simpa using (show 1 ≤ limit by omega)
      · simpa [hsec] using h.windows w
  | joins hin hstart hcount hexamined =>
    have hnow := h.now
    have hpassed := passed_concat hexamined
    rcases lt_or_ge limit (s.throttle.count + 1) with hfull | hroom
    · have hsame : passed s' = passed s := by simpa [hfull] using hpassed
      constructor
      · rw [hsame, hstart, hcount]
        omega
      · rw [hsame]
        exact h.windows
    · have hmore : passed s' = passed s ++ [⟨sec, s.throttle.lastWindowStart, false⟩] := by
        simpa [not_lt.2 hroom] using hpassed
      constructor
      · rw [hmore, hstart, hcount, List.filter_append]
        simpa using hnow
      · intro w
        rw [hmore, List.filter_append, List.filter_singleton]
        by_cases hw' : s.throttle.lastWindowStart = w
        · subst hw'
          simp only [decide_true, cond_true, List.length_append, List.length_singleton]
          push_cast
          omega
        · simpa [hw'] using h.windows w

theorem length_le_of_two (h : Rationed limit s) {l : List Examined} (hl : l.Sublist (passed s))
    {w₁ w₂ : ℤ} (hw : ∀ e ∈ l, e.window = w₁ ∨ e.window = w₂) : (l.length : ℤ) ≤ 2 * limit := by
  have hsplit : l.length = (l.filter fun e => e.window = w₁).length +
      (l.filter fun e => !decide (e.window = w₁)).length := List.length_eq_length_filter_add _
  have hle₁ := (hl.filter fun e => e.window = w₁).length_le
  have hle₂ : (l.filter fun e => !decide (e.window = w₁)).length ≤
      ((passed s).filter fun e => e.window = w₂).length := by
    have hself : (l.filter fun e => !decide (e.window = w₁)).filter (fun e => e.window = w₂) =
        l.filter fun e => !decide (e.window = w₁) := by
      refine List.filter_eq_self.2 fun e he => ?_
      obtain ⟨he, hne⟩ := List.mem_filter.1 he
      simpa using (hw e he).resolve_left (by simpa using hne)
    rw [← hself]
    exact ((List.filter_sublist.trans hl).filter _).length_le
  have := h.windows w₁
  have := h.windows w₂
  omega

/-! ## Any seconds -/

/-- No message is examined that is earlier than the window it would be counted in. -/
def OnTime : ThrottleAct → ThrottleRun → Prop
  | .reachLimit name sec, s => s.throttle.examines name = true → s.throttle.lastWindowStart ≤ sec
  | .use _, _ => True

/-- The messages within the timespan of a second. -/
def closeTo (timespan sec : ℤ) (l : List Examined) : List Examined :=
  l.filter fun e => e.sec - sec ≤ timespan ∧ sec - e.sec ≤ timespan

/-- Messages that are throttled have enough others close to them before. -/
structure Justified (limit timespan : ℤ) (s : ThrottleRun) : Prop where
  begins : ∀ e ∈ s.examined, e.window ≤ e.sec
  close : ∀ pre e, pre ++ [e] <+: s.examined → e.limited = true →
    limit ≤ ((closeTo timespan e.sec pre).length : ℤ)

theorem justified_start : Justified limit timespan (start expr limit timespan) :=
  ⟨by simp [start], by simp [start]⟩

theorem Justified.keeps (h : Justified limit timespan s) (hs : Keeps s s') :
    Justified limit timespan s' := by
  obtain ⟨hbegins, hclose⟩ := h
  rw [← hs.examined] at hbegins hclose
  exact ⟨hbegins, hclose⟩

/-- It is enough to look at the last message. -/
theorem close_concat {l : List Examined} {x : Examined}
    (hl : ∀ pre e, pre ++ [e] <+: l → e.limited = true →
      limit ≤ ((closeTo timespan e.sec pre).length : ℤ))
    (hx : x.limited = true → limit ≤ ((closeTo timespan x.sec l).length : ℤ)) :
    ∀ pre e, pre ++ [e] <+: l ++ [x] → e.limited = true →
      limit ≤ ((closeTo timespan e.sec pre).length : ℤ) := by
  intro pre e hpre hlim
  rcases List.prefix_concat_iff.1 hpre with heq | hpre
  · obtain ⟨rfl, rfl⟩ := List.append_singleton_inj.1 heq
    exact hx hlim
  · exact hl pre e hpre hlim

theorem Justified.counts (h : Justified limit timespan s) (hw : Windowed timespan s)
    (hsec : s.throttle.lastWindowStart ≤ sec) (hs : Counts limit timespan sec s s') :
    Justified limit timespan s' := by
  cases hs with
  | opens hlate hstart hcount hexamined =>
    constructor
    · rw [hexamined, List.forall_mem_append, List.forall_mem_singleton]
      exact ⟨h.begins, le_rfl⟩
    · rw [hexamined]
      exact close_concat h.close (by simp)
  | joins hin hstart hcount hexamined =>
    constructor
    · rw [hexamined, List.forall_mem_append, List.forall_mem_singleton]
      exact ⟨h.begins, hsec⟩
    · rw [hexamined]
      refine close_concat h.close fun hlim => ?_
      -- all that is counted in the window lies in it, as does the message
      have hle : (inWindow s.throttle.lastWindowStart s).length ≤
          (closeTo timespan sec s.examined).length := by
        rw [inWindow, closeTo, ← List.countP_eq_length_filter, ← List.countP_eq_length_filter]
        refine List.countP_mono_left fun e he hwindow => ?_
        have := h.begins e he
        have := hw.ends e he
        simp only [decide_eq_true_eq] at hwindow ⊢
        omega
      have hcounted := hw.count
      simp only [decide_eq_true_eq] at hlim ⊢
      omega

/-- A message that is behind all that is counted is throttled, however few there are. -/
theorem limited_of_behind (h : Reaches step (start expr limit timespan) s) (hlimit : 0 < limit)
    (htimespan : 0 < timespan) (hex : s.throttle.examines name = true)
    (hfull : limit ≤ s.throttle.count)
    (hbehind : ∀ e ∈ s.examined, sec + timespan < e.sec) :
    ∃ s', step (.reachLimit name sec) s = some s' ∧
      s'.examined = s.examined ++ [⟨sec, s.throttle.lastWindowStart, true⟩] ∧
      closeTo timespan sec s.examined = [] := by
  obtain ⟨⟨rfl, rfl⟩, hw, -⟩ := run_windowed (I := fun _ => True) h hlimit htimespan trivial
    (fun _ _ _ _ => trivial) fun _ _ _ _ _ _ _ _ _ => trivial
  have hpos : 0 < (inWindow s.throttle.lastWindowStart s).length := by
    have := hw.count
    omega
  obtain ⟨e, he⟩ := List.exists_mem_of_length_pos hpos
  obtain ⟨he, hwindow⟩ := List.mem_filter.1 he
  have hlate := hbehind e he
  have hends := hw.ends e he
  simp only [decide_eq_true_eq] at hwindow
  obtain ⟨s', hstep, -, hcounts⟩ := step_examined sec hlimit htimespan hex
  refine ⟨s', hstep, ?_, ?_⟩
  · cases hcounts with
    | opens hlate' => omega
    | joins _ _ _ hexamined =>
      rw [hexamined, decide_eq_true (show s.throttle.limit < s.throttle.count + 1 by omega)]
  · refine List.filter_eq_nil_iff.2 fun e he => ?_
    have := hbehind e he
    simp only [decide_eq_true_eq]
    omega

/-- However the throttle is switched off and on, as long as the seconds do not decrease. -/
theorem passed_le {expr : Regex} {limit timespan : ℤ} {s : ThrottleRun}
    (h : Machine.Run step InOrder (start expr limit timespan) s) (hlimit : 0 < limit)
    (htimespan : 0 < timespan) :
    (∀ a, ((s.passed.filter fun e => a ≤ e.sec ∧ e.sec ≤ a + timespan).length : ℤ) ≤ 2 * limit) ∧
      ∀ w, ((s.passed.filter fun e => e.window = w).length : ℤ) ≤ limit := by
  obtain ⟨-, -, hspread, hr⟩ := run_windowed
    (I := fun s => Spread timespan s ∧ Rationed limit s) h hlimit htimespan
    ⟨spread_start, rationed_start hlimit⟩ (fun s s' hI hs => ⟨hI.1.keeps hs, hI.2.keeps hs⟩)
    fun name sec s s' hI hw hex hok hs =>
      ⟨hI.1.counts hw htimespan (hok hex) hs, hI.2.counts hw htimespan hlimit hs⟩
  refine ⟨fun a => ?_, hr.windows⟩
  have hl := List.filter_sublist (l := s.passed) (p := fun e => a ≤ e.sec ∧ e.sec ≤ a + timespan)
  obtain ⟨w₁, w₂, hw⟩ := hspread.two_windows a (hl.trans List.filter_sublist)
    fun e he => by simpa using (List.mem_filter.1 he).2
  exact length_le_of_two hr hl hw

/-- As long as no clock is behind the start of the window there is. -/
theorem limited_has_earlier {expr : Regex} {limit timespan : ℤ} {s : ThrottleRun}
    (h : Machine.Run step OnTime (start expr limit timespan) s) (hlimit : 0 < limit)
    (htimespan : 0 < timespan) {pre : List Examined} {e : Examined}
    (hpre : pre ++ [e] <+: s.examined) (hlim : e.limited = true) :
    limit ≤ ((closeTo timespan e.sec pre).length : ℤ) := by
  obtain ⟨-, -, hj⟩ := run_windowed (I := Justified limit timespan) h hlimit htimespan
    justified_start (fun s s' hI hs => hI.keeps hs)
    fun name sec s s' hI hw hex hok hs => hI.counts hw (hok hex) hs
  exact hj.close pre e hpre hlim

/-! ## A throttle of one message a second -/

/-- The throttle of the messages of `a`. -/
def oneASecond : ThrottleRun := start (.literal "a") 1 1

/-- It is asked twice, and once between while it is off. -/
theorem asked_run (ok : ThrottleAct → ThrottleRun → Prop)
    (hok : ∀ sec ∈ [5, 6], ∀ s : ThrottleRun, (∀ e ∈ s.examined, e.sec ≤ sec) →
      s.throttle.lastWindowStart ≤ sec → ok (.reachLimit "a".toList sec) s)
    (huse : ∀ flag s, ok (.use flag) s) :
    ∃ s, Machine.Run step ok oneASecond s ∧ s.examined = [⟨5, 5, false⟩, ⟨6, 5, true⟩] := by
  have h₁ : Machine.Run step ok oneASecond _ :=
    Machine.Run.next .refl (a := .reachLimit "a".toList 5)
      (hok 5 (by decide) _ (by decide) (by decide)) rfl
  have h₂ : Machine.Run step ok oneASecond _ := h₁.next (a := .use false) (huse _ _) rfl
  have h₃ : Machine.Run step ok oneASecond _ := h₂.next (a := .reachLimit "a".toList 5)
    (hok 5 (by decide) _ (by decide) (by decide)) rfl
  have h₄ : Machine.Run step ok oneASecond _ := h₃.next (a := .use true) (huse _ _) rfl
  have h₅ : Machine.Run step ok oneASecond _ := h₄.next (a := .reachLimit "a".toList 6)
    (hok 6 (by decide) _ (by decide) (by decide)) rfl
  exact ⟨_, h₅, rfl⟩

theorem passed_le_first : ∃ s : ThrottleRun, s.examined = [⟨5, 5, false⟩, ⟨6, 5, true⟩] ∧
    ((s.passed.filter fun e => 5 ≤ e.sec ∧ e.sec ≤ 5 + 1).length : ℤ) ≤ 2 * 1 := by
  obtain ⟨s, hs, hexamined⟩ := asked_run InOrder
    (fun _ _ _ h _ _ => h) fun _ _ => trivial
  exact ⟨s, hexamined, (passed_le hs (by decide) (by decide)).1 5⟩

theorem limited_has_earlier_first :
    (1 : ℤ) ≤ ((closeTo 1 6 [⟨5, 5, false⟩]).length : ℤ) := by
  obtain ⟨s, hs, hexamined⟩ := asked_run OnTime
    (fun _ _ _ _ h _ => h) fun _ _ => trivial
  exact limited_has_earlier (e := ⟨6, 5, true⟩) hs (by decide) (by decide)
    (by rw [hexamined]; exact ⟨[], rfl⟩) rfl

/-- A message of the hundredth second comes first, and one of the start after it. -/
theorem limited_alone : ∃ s, Reaches step oneASecond s ∧ ∃ pre e, pre ++ [e] <+: s.examined ∧
    e.limited = true ∧ ¬(1 : ℤ) ≤ ((closeTo 1 e.sec pre).length : ℤ) :=
  ⟨_, reaches_exec [.reachLimit "a".toList 100, .reachLimit "a".toList 0] rfl,
    [⟨100, 100, false⟩], ⟨0, 100, true⟩, ⟨[], rfl⟩, rfl, by decide⟩

end ThrottleRun

end MfExtensions
