import MfExtensions.Lib.Burst
import MfExtensions.Proofs.CellWindow
import MfExtensions.Proofs.Takes
import MfExtensions.Proofs.Trigger

/-!
# Cells and bursts

A cell of an `at_least` condition heeds the messages that came to it since its last reset if it has
been on only for a burst of them, and holds what it needs to know the next one. A hit keeps that,
and there is a burst after it if there was one or the cell is on (`Heeds.hit`); an event keeps it
too, as no event can turn the cell on (`Heeds.event`).
-/

namespace MfExtensions

open Machine Window

theorem CondConfig.Bursty.sane {k : CondConfig} (hk : k.Bursty) :
    k.Sane ∧ (sizeT k.tc : ℤ) = k.tc :=
  CellRun.sane_of_atLeast hk.one_le hk.int hk.timespan

namespace Cell

variable {k : CondConfig} {msg : Msg} {w : Smatch} {x y : Cell} {te : Option ℤ} {flipped : Bool}
  {hist : List Msg}

/-- A hit that leaves an `at_least` cell off schedules nothing. -/
theorem hit_off (hleast : k.atLeast = true) (h : x.hit k msg w = some (y, te, flipped))
    (hoff : y.on = false) : te = none ∧ y.tEvent = x.tEvent := by
  unfold hit at h
  simp only [] at h
  split at h
  · cases h
    exact ⟨rfl, rfl⟩
  · split at h
    · cases h
    · split_ifs at h with hfull hmost
      · split at h
        · cases h
        · cases h
          rw [hleast] at hoff
          cases hoff
      · rw [hleast] at hmost
        cases hmost
      · cases h
        exact ⟨rfl, rfl⟩

/-- The event that a hit schedules is the one for the messages it holds, and of a cell that was not
on for good. -/
theorem hit_scheduled {t : ℤ} (h : x.hit k msg w = some (y, some t, flipped)) :
    (x.on && k.persistent) = false ∧ nextEvent k.ts y.msgs = some t := by
  generalize hte : some t = te at h
  rcases hit_cases h with _ | ⟨hidle, -, ht, -⟩ | _
  · cases hte
  · cases hte
    exact ⟨hidle, ht⟩
  · cases hte

/-- The messages `hist` came to the cell. -/
structure Heeds (k : CondConfig) (hist : List Msg) (x : Cell) : Prop where
  windowed : (x.on && k.persistent) = false → CellRun.Windowed k ⟨x, hist, [], 0⟩
  on : x.on = true → k.HasBurst hist
  ready : k.persistent = true → x.on = false → x.tEvent = 0

theorem heeds_new (hmsgs : x.msgs = []) (hon : x.on = false) (ht : x.tEvent = 0) :
    Heeds k [] x := by
  refine ⟨fun _ => ⟨.nil, ?_, ?_⟩, fun h => ?_, fun _ _ => ht⟩
  · rw [hmsgs]
  · rw [hmsgs]
    exact .refl
  · rw [hon] at h
    cases h

/-- A hit turns a cell on that may turn off if and only if the window that ends with the message
holds as many as the condition asks for. -/
theorem on_iff_recent (hk : k.Bursty) (hwin : CellRun.Windowed k ⟨x, hist, [], 0⟩)
    (hidle : (x.on && k.persistent) = false) (hle : ∀ m ∈ hist, m.time ≤ msg.time)
    (hhit : x.hit k msg w = some (y, te, flipped)) :
    y.on = true ↔ sizeT k.tc ≤ (recent Msg.time k.ts msg.time (hist ++ [msg])).length := by
  obtain ⟨hsane, -⟩ := hk.sane
  have hok : CellRun.Ordered (.hit msg w) ⟨x, hist, [], 0⟩ := hle
  have hs := CellRun.hit_of_step hsane (CellRun.step_of_hit (s := ⟨x, hist, [], 0⟩) hhit)
  -- what the cell holds are the last messages of the window
  have hheld : y.msgs.length =
      min (sizeT k.tc) (recent Msg.time k.ts msg.time (x.msgs ++ [msg])).length := by
    have hmsgs : y.msgs = kept k msg.time x.msgs ++ [msg] := hs.msgs hidle
    rw [hmsgs, CellRun.held_eq_window hsane hwin hok, length_rtake]
  have hcount : sizeT k.tc ≤ (recent Msg.time k.ts msg.time (x.msgs ++ [msg])).length ↔
      sizeT k.tc ≤ (recent Msg.time k.ts msg.time (hist ++ [msg])).length :=
    (hwin.shows.push msg).le_length_iff (le_concat hle) le_rfl
  have hstatus : y.on = (k.atLeast && decide (y.msgs.length = sizeT k.tc)) := hs.on hidle
  rw [hstatus, hk.atLeast, Bool.true_and, decide_eq_true_eq]
  omega

/-- A hit of a cell keeps it so, and after it there is a burst if there was one or the cell is
on. -/
theorem Heeds.hit (hk : k.Bursty) (h : Heeds k hist x) (hle : ∀ m ∈ hist, m.time ≤ msg.time)
    (hhit : x.hit k msg w = some (y, te, flipped)) :
    Heeds k (hist ++ [msg]) y ∧ (k.HasBurst (hist ++ [msg]) ↔ k.HasBurst hist ∨ y.on = true) ∧
      ∀ t ∈ te, ∃ m ∈ hist ++ [msg], t = m.time + k.ts + 1 := by
  obtain ⟨hsane, -⟩ := hk.sane
  have hok : CellRun.Ordered (.hit msg w) ⟨x, hist, [], 0⟩ := hle
  have hiff := Burst.has_concat_iff (T := k.ts) (n := sizeT k.tc) hle
  by_cases hidle : (x.on && k.persistent) = true
  · -- on for good: there has been a burst
    have hburst := h.on (Bool.and_eq_true_iff.1 hidle).1
    obtain ⟨hy, hte⟩ : y = { x with what := w, msgs := (x.msgs ++ [msg]).tail } ∧ te = none := by
      rw [hit_of_persistent hidle] at hhit
      simp only [Option.some.injEq, Prod.mk.injEq] at hhit
      exact ⟨hhit.1.symm, hhit.2.1.symm⟩
    subst hy hte
    refine ⟨⟨fun h => ?_, fun _ => hburst.append _, fun _ hoff => ?_⟩, ?_, by simp⟩
    · exact absurd (hidle.symm.trans h) (by simp)
    · exact absurd ((Bool.and_eq_true_iff.1 hidle).1.symm.trans hoff) (by simp)
    · exact iff_of_true (hburst.append _) (.inl hburst)
  · have hfalse := Bool.not_eq_true _ ▸ hidle
    have hwin := h.windowed hfalse
    have hs := CellRun.hit_of_step hsane (CellRun.step_of_hit (s := ⟨x, hist, [], 0⟩) hhit)
    have hwin' := hwin.hit hsane hfalse hok hs
    have hon := on_iff_recent hk hwin hfalse hle hhit
    refine ⟨⟨fun _ => ?_, fun h => ?_, fun hper hoff => ?_⟩, ?_, fun t ht => ?_⟩
    · exact ⟨hwin'.order, hwin'.held, hwin'.shows⟩
    · exact hiff.2 (.inr (hon.1 h))
    · rw [(hit_off hk.atLeast hhit hoff).2]
      rw [hper, Bool.and_true] at hfalse
      exact h.ready hper hfalse
    · exact hiff.trans (or_congr_right hon.symm)
    · obtain rfl : te = some t := ht
      obtain ⟨-, hnext⟩ := hit_scheduled hhit
      rcases hms : y.msgs with _ | ⟨m, ms⟩ <;> rw [hms] at hnext <;> cases hnext
      have hheld : y.msgs.Sublist (hist ++ [msg]) := hwin'.held
      exact ⟨m, hheld.subset (hms ▸ List.mem_cons_self), rfl⟩

/-- An event that is not of the time 0 turns no cell on. -/
theorem Heeds.event (hk : k.Bursty) (h : Heeds k hist x) {t : ℤ} (ht : t ≠ 0) :
    Heeds k hist (x.event k t).1 := by
  obtain ⟨hmsgs, -⟩ := CellRun.event_fields (k := k) t x
  rw [event_eq]
  split_ifs with hdue
  · have hstatus : k.eventStatus = k.persistent := by
      unfold CondConfig.eventStatus
      rw [hk.atLeast]
      rfl
    cases hper : k.persistent with
    | false =>
      have hwin := h.windowed (by rw [hper, Bool.and_false])
      refine ⟨fun _ => ⟨hwin.order, hwin.held, hwin.shows⟩, fun hon => ?_, fun h => ?_⟩
      · rw [hstatus, hper] at hon
        cases hon
      · rw [hper] at h
        cases h
    | true =>
      -- a cell that is off for good has no event of its own
      have hon : x.on = true := by
        by_contra hoff
        exact ht (hdue.trans (h.ready hper (Bool.not_eq_true _ ▸ hoff)))
      have hsame : { x with on := k.eventStatus } = x := by rw [hstatus, hper, ← hon]
      rw [hsame]
      exact h
  · exact h

end Cell

/-! ## Hitmaps -/

namespace Hitmap

/-- Where the maps lead the two names. -/
def cellAt (h : Hitmap) (x : String × String) : Option ℕ × Option ℕ :=
  (h.srcIdx.find? x.1, h.tgtIdx.find? x.2)

/-- The messages taken that came to a cell. -/
def came (h : Hitmap) (taken : Taken) (i j : ℕ) : List Msg :=
  (Burst.named (fun p => h.cellAt p.1) (some i, some j) taken).map Prod.snd

/-- The maps have the names of the messages taken, and each cell heeds those that came to it. -/
structure Heeds (k : CondConfig) (taken : Taken) (h : Hitmap) : Prop where
  names : ∀ p ∈ taken, ∃ src tgt, p.1 = (srcName k src, tgtName k tgt)
  times : ∀ p ∈ taken, 0 ≤ p.2.time
  src : ∀ n, h.srcIdx.find? n ≠ none ↔ n ∈ taken.map (·.1.1)
  tgt : ∀ n, h.tgtIdx.find? n ≠ none ↔ n ∈ taken.map (·.1.2)
  cells : ∀ i j, (h.cells i j).Heeds k (h.came taken i j)

variable {k : CondConfig} {taken : Taken} {h h' : Hitmap} {msg : Msg} {src tgt : String}
  {what : Smatch} {change : Change} {te : Option CellEvent}

theorem mem_came {m : Msg} {i j : ℕ} :
    m ∈ h.came taken i j ↔ ∃ x, (x, m) ∈ taken ∧ h.cellAt x = (some i, some j) := by
  simp only [came, List.mem_map, Burst.mem_named]
  constructor
  · rintro ⟨⟨x, m⟩, hp, rfl⟩
    exact ⟨x, hp⟩
  · rintro ⟨x, hp⟩
    exact ⟨(x, m), hp, rfl⟩

/-- Names that lead to one cell are the same. -/
theorem WF.cellAt_inj (hw : h.WF) {x y : String × String} {i j : ℕ}
    (hx : h.cellAt x = (some i, some j)) (hy : h.cellAt y = (some i, some j)) : x = y := by
  obtain ⟨hsx, htx⟩ := Prod.mk.inj hx
  obtain ⟨hsy, hty⟩ := Prod.mk.inj hy
  exact Prod.ext ((hw.src.idx_eq_iff hsx hsy).1 rfl) ((hw.tgt.idx_eq_iff htx hty).1 rfl)

theorem heeds_init (k : CondConfig) : Heeds k [] {} :=
  ⟨by simp, by simp, by simp, by simp, fun _ _ => Cell.heeds_new rfl rfl rfl⟩

/-- A message goes to the cell of its names, and none taken before it to another cell than it
did. -/
structure Goes (k : CondConfig) (taken : Taken) (x : String × String) (msg : Msg) (i j : ℕ)
    (h h' : Hitmap) : Prop where
  cellAt : h'.cellAt x = (some i, some j)
  src : ∀ n, h'.srcIdx.find? n ≠ none ↔ h.srcIdx.find? n ≠ none ∨ n = x.1
  tgt : ∀ n, h'.tgtIdx.find? n ≠ none ↔ h.tgtIdx.find? n ≠ none ∨ n = x.2
  kept : ∀ p ∈ taken, h'.cellAt p.1 = h.cellAt p.1
  came : ∀ i' j', h'.came (taken ++ [(x, msg)]) i' j' =
    if i' = i ∧ j' = j then h.came taken i' j' ++ [msg] else h.came taken i' j'

theorem Heeds.oneName (hh : h.Heeds k taken) : h.OneName k := by
  refine ⟨fun hper n hn => ?_, fun hper n hn => ?_⟩
  · obtain ⟨p, hp, rfl⟩ := List.mem_map.1 ((hh.src n).1 hn)
    obtain ⟨src, tgt, hx⟩ := hh.names p hp
    simp [hx, srcName, hper]
  · obtain ⟨p, hp, rfl⟩ := List.mem_map.1 ((hh.tgt n).1 hn)
    obtain ⟨src, tgt, hx⟩ := hh.names p hp
    simp [hx, tgtName, hper]

theorem Heeds.exists_cellAt (hh : h.Heeds k taken) {p : (String × String) × Msg}
    (hp : p ∈ taken) : ∃ i j, h.cellAt p.1 = (some i, some j) := by
  obtain ⟨i, hi⟩ := Option.ne_none_iff_exists'.1
    ((hh.src p.1.1).2 (List.mem_map_of_mem (f := fun p : (String × String) × Msg => p.1.1) hp))
  obtain ⟨j, hj⟩ := Option.ne_none_iff_exists'.1
    ((hh.tgt p.1.2).2 (List.mem_map_of_mem (f := fun p : (String × String) × Msg => p.1.2) hp))
  exact ⟨i, j, Prod.ext hi hj⟩

theorem Heeds.goes (hh : h.Heeds k taken) (hb : h.Built) (msg : Msg)
    (hsrc : h'.srcIdx = (findIndex k.perSource globalS h.srcIdx src).1)
    (htgt : h'.tgtIdx = (findIndex k.perTarget globalT h.tgtIdx tgt).1) :
    Goes k taken (srcName k src, tgtName k tgt) msg
      (findIndex k.perSource globalS h.srcIdx src).2.1
      (findIndex k.perTarget globalT h.tgtIdx tgt).2.1 h h' := by
  obtain ⟨hs, hsnames, hskeep⟩ := findIndex_found hb.wf.src hh.oneName.src src
  obtain ⟨ht, htnames, htkeep⟩ := findIndex_found hb.wf.tgt hh.oneName.tgt tgt
  rw [← hsrc] at hs hsnames hskeep
  rw [← htgt] at ht htnames htkeep
  have hat : h'.cellAt (srcName k src, tgtName k tgt) =
      (some (findIndex k.perSource globalS h.srcIdx src).2.1,
        some (findIndex k.perTarget globalT h.tgtIdx tgt).2.1) := Prod.ext hs ht
  have hkept : ∀ p ∈ taken, h'.cellAt p.1 = h.cellAt p.1 := by
    intro p hp
    obtain ⟨i, j, hat⟩ := hh.exists_cellAt hp
    obtain ⟨hi, hj⟩ := Prod.mk.inj hat
    exact Prod.ext ((hskeep _ _ hi).trans hi.symm) ((htkeep _ _ hj).trans hj.symm)
  refine ⟨hat, hsnames, htnames, hkept, fun i j => ?_⟩
  have hold : Burst.named (fun p => h'.cellAt p.1) (some i, some j) taken =
      Burst.named (fun p => h.cellAt p.1) (some i, some j) taken :=
    Burst.named_congr fun p hp => by rw [hkept p hp]
  unfold came
  rw [Burst.named_concat, hold, hat]
  simp only [Prod.mk.injEq, Option.some.injEq, eq_comm (a := i), eq_comm (a := j)]
  split_ifs with heq
  · rw [List.map_append]
    rfl
  · rfl

/-- The cell of a message that is captured is hit, the others are as they were. -/
theorem Built.hit_of_capture (hb : h.Built)
    (hc : h.capture k msg src tgt what = some (h', change, te)) :
    ∃ y te' flipped, (h.cells (findIndex k.perSource globalS h.srcIdx src).2.1
        (findIndex k.perTarget globalT h.tgtIdx tgt).2.1).hit k msg what = some (y, te', flipped) ∧
      h'.cells (findIndex k.perSource globalS h.srcIdx src).2.1
        (findIndex k.perTarget globalT h.tgtIdx tgt).2.1 = y ∧
      (∀ i j, ¬(i = (findIndex k.perSource globalS h.srcIdx src).2.1 ∧
        j = (findIndex k.perTarget globalT h.tgtIdx tgt).2.1) → h'.cells i j = h.cells i j) ∧
      te.map Prod.fst = te' := by
  simp only [Hitmap.capture, hb.locate_eq] at hc
  generalize (findIndex k.perSource globalS h.srcIdx src).2.1 = s at hc ⊢
  generalize (findIndex k.perTarget globalT h.tgtIdx tgt).2.1 = t at hc ⊢
  rcases hhit : (h.cells s t).hit k msg what with _ | ⟨y, te', flipped⟩ <;> rw [hhit] at hc
  · cases hc
  · cases hc
    refine ⟨y, te', flipped, rfl, if_pos ⟨rfl, rfl⟩, fun i j hne => if_neg hne, ?_⟩
    cases te' <;> rfl

/-- A capture by a hitmap whose cells heed the messages taken. -/
structure Took (k : CondConfig) (taken : Taken) (x : String × String) (msg : Msg)
    (te : Option CellEvent) (h h' : Hitmap) : Prop where
  heeds : h'.Heeds k (taken ++ [(x, msg)])
  /-- there is a burst where there was one or the cell is on -/
  burst : ∀ i j, k.HasBurst (h'.came (taken ++ [(x, msg)]) i j) ↔
    k.HasBurst (h.came taken i j) ∨ (h'.cells i j).on = true
  /-- only the cell of the message may be another, and to it came those of its names -/
  own : ∃ i j, h'.cellAt x = (some i, some j) ∧
    h.came taken i j = (Burst.named Prod.fst x taken).map Prod.snd ∧
    ∀ i' j', ¬(i' = i ∧ j' = j) → h'.cells i' j' = h.cells i' j'
  event : ∀ ev ∈ te, 1 ≤ ev.1

theorem Heeds.capture (hk : k.Bursty) (hb : h.Built) (hh : h.Heeds k taken) (h0 : 0 ≤ msg.time)
    (hle : ∀ p ∈ taken, p.1 = (srcName k src, tgtName k tgt) → p.2.time ≤ msg.time)
    (hc : h.capture k msg src tgt what = some (h', change, te)) :
    Took k taken (srcName k src, tgtName k tgt) msg te h h' := by
  obtain ⟨hsrc, htgt, -, -⟩ := capture_idx hc
  have hgoes := hh.goes hb msg hsrc htgt
  obtain ⟨y, te', flipped, hhit, hown, hother, rfl⟩ := hb.hit_of_capture hc
  have hwf' : h'.WF := hb.wf.capture hc
  generalize (findIndex k.perSource globalS h.srcIdx src).2.1 = s at *
  generalize (findIndex k.perTarget globalT h.tgtIdx tgt).2.1 = t at *
  have hlast : ∀ m ∈ h.came taken s t, m.time ≤ msg.time := by
    intro m hm
    obtain ⟨x, hx, hat⟩ := mem_came.1 hm
    rw [← hgoes.kept _ hx] at hat
    exact hle _ hx (hwf'.cellAt_inj hat hgoes.cellAt)
  have hcame : h.came taken s t =
      (Burst.named Prod.fst (srcName k src, tgtName k tgt) taken).map Prod.snd := by
    refine congrArg (List.map Prod.snd) (Burst.named_congr fun p hp => ?_)
    rw [← hgoes.kept p hp]
    constructor
    · exact fun hat => hwf'.cellAt_inj hat hgoes.cellAt
    · intro hx
      rw [hx]
      exact hgoes.cellAt
  obtain ⟨hcell, hburst, hevent⟩ := (hh.cells s t).hit hk hlast hhit
  refine ⟨⟨?_, ?_, fun n => ?_, fun n => ?_, fun i j => ?_⟩, fun i j => ?_, ⟨s, t, hgoes.cellAt,
    hcame, hother⟩, fun ev hev => ?_⟩
  · intro p hp
    rcases List.mem_append.1 hp with hp | hp
    · exact hh.names p hp
    · exact ⟨src, tgt, congrArg Prod.fst (List.mem_singleton.1 hp)⟩
  · intro p hp
    rcases List.mem_append.1 hp with hp | hp
    · exact hh.times p hp
    · rw [List.mem_singleton.1 hp]
      exact h0
  · rw [hgoes.src, hh.src, List.map_append, List.mem_append]
    simp
  · rw [hgoes.tgt, hh.tgt, List.map_append, List.mem_append]
    simp
  · rw [hgoes.came]
    split_ifs with heq
    · obtain ⟨rfl, rfl⟩ := heq
      rw [hown]
      exact hcell
    · rw [hother i j heq]
      exact hh.cells i j
  · rw [hgoes.came]
    split_ifs with heq
    · obtain ⟨rfl, rfl⟩ := heq
      rw [hown]
      exact hburst
    · rw [hother i j heq]
      exact (or_iff_left_of_imp (hh.cells i j).on).symm
  · obtain rfl : te = some ev := hev
    obtain ⟨m, hm, ht⟩ := hevent ev.1 rfl
    have hm0 : 0 ≤ m.time := by
      rcases List.mem_append.1 hm with hm | hm
      · obtain ⟨x, hx, -⟩ := mem_came.1 hm
        exact hh.times _ hx
      · rw [List.mem_singleton.1 hm]
        exact h0
    have hts := hk.timespan
    omega

/-- The messages of two names that the maps have came to one cell. -/
theorem WF.came_eq (hw : h.WF) {x : String × String} {i j : ℕ}
    (hx : h.cellAt x = (some i, some j)) :
    h.came taken i j = (Burst.named Prod.fst x taken).map Prod.snd := by
  refine congrArg (List.map Prod.snd) (Burst.named_congr fun p _ => ?_)
  constructor
  · exact fun hp => hw.cellAt_inj hp hx
  · intro hp
    rw [hp]
    exact hx

theorem exists_of_burst (hk : k.Bursty) {i j : ℕ} (hb : k.HasBurst (h.came taken i j)) :
    ∃ x m, (x, m) ∈ taken ∧ h.cellAt x = (some i, some j) := by
  obtain ⟨m, hm⟩ := List.exists_mem_of_ne_nil _ (Burst.Has.ne_nil hk.sane.1.count hb)
  obtain ⟨x, hx⟩ := mem_came.1 hm
  exact ⟨x, m, hx⟩

/-- A cell that is on has an index of each map. -/
theorem Heeds.lt_of_on (hk : k.Bursty) (hw : h.WF) (hh : h.Heeds k taken) {i j : ℕ}
    (hon : (h.cells i j).on = true) : i < h.srcIdx.size ∧ j < h.tgtIdx.size := by
  obtain ⟨x, -, -, hat⟩ := exists_of_burst hk ((hh.cells i j).on hon)
  obtain ⟨hs, ht⟩ := Prod.mk.inj hat
  exact ⟨hw.src.lt _ (OrdMap.find?_eq_some_iff.1 hs), hw.tgt.lt _ (OrdMap.find?_eq_some_iff.1 ht)⟩

theorem heeds_reset (k : CondConfig) (hb : h.Built) : h.reset.Heeds k [] := by
  refine ⟨by simp, by simp, fun n => ?_, fun n => ?_, fun i j => ?_⟩
  · simp [Hitmap.reset]
  · simp [Hitmap.reset]
  · simp only [Hitmap.reset]
    split_ifs with hin
    · exact Cell.heeds_new rfl rfl rfl
    · rw [hb.outside i j hin]
      exact Cell.heeds_new rfl rfl rfl

end Hitmap

/-- Events that are not of the time 0 keep the cells heeding. -/
theorem Engine.heeds_delivered {C R : Type} [DecidableEq C] {cfg : Config C R} {c : C}
    {evs : List (TimingEvent C)} {conds : C → Condition} {taken : Taken}
    (hk : (cfg.cond c).Bursty) (hh : (conds c).hitmap.Heeds (cfg.cond c) taken)
    (hev : ∀ ev ∈ evs, ev.cond = c → 1 ≤ ev.ts) :
    (delivered cfg evs conds c).hitmap.Heeds (cfg.cond c) taken := by
  refine ⟨hh.names, hh.times, hh.src, hh.tgt, fun i j => ?_⟩
  show Cell.Heeds _ ((conds c).hitmap.came taken i j) _
  rw [delivered_cells]
  split_ifs with hdue
  · obtain ⟨ev, hmem, hc, -, -, hts⟩ := (isDue_iff _ _).1 hdue
    have hne : ((conds c).hitmap.cells i j).tEvent ≠ 0 := by
      have hpos := hev ev hmem hc
      omega
    have hcell := (hh.cells i j).event hk hne
    rwa [Cell.event_eq, if_pos rfl] at hcell
  · exact hh.cells i j

end MfExtensions
