import MfExtensions.Proofs.DomainCache
import MfExtensions.Proofs.Events

/-!
# Engines that cannot be told apart

Two engines are twins if their rules are the same, their conditions are twins and the events that
only the second has are without effect. Every call keeps twins twins and makes the same calls of
the owner in both (`Twin.exec`).
-/

namespace MfExtensions

open Exec

variable {C R : Type} [DecidableEq C] [LinearOrder R]

namespace Config

variable (cfg : Config C R)

/-- An `is_syncd` reads the last message of the condition. -/
def Syncs (c : C) : Prop := ∃ r, (cfg.rule r).Syncs c

/-- A message of a rule names a group of the condition. -/
def NamesGroup (c : C) : Prop := ∃ r, (cfg.rule r).NamesGroup c

end Config

namespace Engine

/-- The events are in the order they are popped, and each is of a cell there is. -/
structure Queued (events : List (TimingEvent C)) (conds : C → Condition) : Prop where
  sorted : events.Pairwise fun x y => x.ts ≤ y.ts
  inside : ∀ ev ∈ events, (conds ev.cond).hitmap.Inside ev.sIdx ev.tIdx

/-- Two engines that go the same way from here: their rules are the same and their conditions twins,
and an event that only the second one has is without effect. `past` and `past'` is what they have
called their owner with up to here. -/
structure Twin (cfg : Config C R) (past past' : List Output) (e e' : Engine C R) : Prop where
  conds : ∀ c, Condition.Twin (cfg.cond c) (cfg.Syncs c) (cfg.NamesGroup c) (e.conds c) (e'.conds c)
  rules : e'.rules = e.rules
  ehs : e'.EHS = e.EHS
  participants : e'.participants = e.participants
  queued : Queued e.events e.conds
  queued' : Queued e'.events e'.conds
  pending : ∀ ev ∈ e.events, ev ∈ e'.events
  stale : ∀ ev ∈ e'.events, ev ∈ e.events ∨
    ((e'.conds ev.cond).hitmap.cells ev.sIdx ev.tIdx).Inert (cfg.cond ev.cond) ev.ts
  log : ∃ out, e.log = past ++ out ∧ e'.log = past' ++ out

variable {cfg : Config C R} {past past' : List Output} {e e' : Engine C R}

omit [LinearOrder R] in
/-- Twins give a rule the same to read. -/
theorem Twin.agree (h : Twin cfg past past' e e') (r : R) :
    (cfg.view e).Agree (cfg.rule r) (cfg.view e') := by
  have hsync : ∀ {c}, (cfg.rule r).Syncs c → cfg.Syncs c := fun hs => ⟨r, hs⟩
  exact ⟨rfl, h.participants, fun c _ => (h.conds c).hitmap.toAlike,
    fun c hg => (h.conds c).arg_group ⟨r, hg⟩, fun c hs => (h.conds c).lastSrc (hsync hs),
    fun c hs => (h.conds c).lastTgt (hsync hs), fun c hs => (h.conds c).msgGroup (hsync hs)⟩

omit [LinearOrder R] in
theorem Twin.setRules (h : Twin cfg past past' e e') (rules : R → Rule C) :
    Twin cfg past past' { e with rules } { e' with rules } :=
  ⟨h.conds, rfl, h.ehs, h.participants, h.queued, h.queued', h.pending, h.stale, h.log⟩

omit [LinearOrder R] in
theorem sim_emit (o : Output) : Lockstep (Twin cfg past past') (emit o) (emit o) := by
  refine sim_modify fun e e' h => ?_
  obtain ⟨out, hlog, hlog'⟩ := h.log
  refine ⟨h.conds, h.rules, h.ehs, h.participants, h.queued, h.queued', h.pending, h.stale,
    out ++ [o], ?_, ?_⟩
  · rw [hlog, List.append_assoc]
  · rw [hlog', List.append_assoc]

/-- A computation on a rule does the same in twins, if it reads what they agree on. -/
theorem sim_onRule {α : Type} {r : R} {x : View C → EStateM Err (Rule C) α}
    (hx : ∀ e e', Twin cfg past past' e e' → x (cfg.view e') = x (cfg.view e)) :
    Lockstep (Twin cfg past past')
      (onRule cfg r x) (onRule cfg r x) := by
  intro e e' h
  rw [onRule_apply, onRule_apply, hx e e' h, h.rules]
  rcases x (cfg.view e) (e.rules r) with ⟨a, s⟩ | ⟨err, s⟩
  · exact ⟨rfl, h.setRules _⟩
  · exact ⟨rfl, h.setRules _⟩

/-! ### Matching -/

omit [DecidableEq C] in
theorem mem_schedule {c : C} {te : Option Hitmap.CellEvent} {x : TimingEvent C}
    {evs : List (TimingEvent C)} : x ∈ schedule c te evs ↔
      x.cond = c ∧ te = some (x.ts, x.sIdx, x.tIdx) ∨ x ∈ evs := by
  rcases te with _ | ⟨ts, s, t⟩
  · simp [schedule]
  · rw [schedule, mem_pushEvent]
    refine or_congr_left ⟨?_, ?_⟩
    · rintro rfl
      exact ⟨rfl, rfl⟩
    · rintro ⟨rfl, hte⟩
      obtain ⟨rfl, rfl, rfl⟩ : ts = x.ts ∧ s = x.sIdx ∧ t = x.tIdx := by simpa using hte
      rfl

omit [LinearOrder R] in
theorem Queued.matched {evs : List (TimingEvent C)} {conds : C → Condition} (h : Queued evs conds)
    {c : C} {d : Condition} {te : Option Hitmap.CellEvent}
    (hin : ∀ s t, (conds c).hitmap.Inside s t → d.hitmap.Inside s t)
    (hev : ∀ ev ∈ te, d.hitmap.Inside ev.2.1 ev.2.2) :
    Queued (schedule c te evs) (Function.update conds c d) := by
  refine ⟨?_, fun ev hmem => ?_⟩
  · rcases te with _ | ⟨ts, s, t⟩
    · exact h.sorted
    · exact pushEvent_sorted h.sorted
  · rcases mem_schedule.1 hmem with ⟨rfl, hte⟩ | hold
    · simp only [Function.update_self]
      exact hev _ hte
    · rcases eq_or_ne ev.cond c with rfl | hne
      · simp only [Function.update_self]
        exact hin _ _ (h.inside ev hold)
      · simp only [Function.update_of_ne hne]
        exact h.inside ev hold

omit [LinearOrder R] in
/-- Twins stay twins when a condition of theirs is matched and the hit schedules its event. -/
theorem Twin.matched (h : Twin cfg past past' e e') {c : C} {d d' : Condition}
    (te : Option Hitmap.CellEvent)
    (hd : Condition.Twin (cfg.cond c) (cfg.Syncs c) (cfg.NamesGroup c) d d')
    (hin : ∀ s t, (e.conds c).hitmap.Inside s t → d.hitmap.Inside s t)
    (hin' : ∀ s t, (e'.conds c).hitmap.Inside s t → d'.hitmap.Inside s t)
    (hev : ∀ ev ∈ te, d.hitmap.Inside ev.2.1 ev.2.2 ∧ d'.hitmap.Inside ev.2.1 ev.2.2)
    (hinert : ∀ τ s t, ((e'.conds c).hitmap.cells s t).Inert (cfg.cond c) τ →
      te ≠ some (τ, s, t) → (d'.hitmap.cells s t).Inert (cfg.cond c) τ) :
    Twin cfg past past'
      { e with conds := Function.update e.conds c d, events := schedule c te e.events }
      { e' with conds := Function.update e'.conds c d', events := schedule c te e'.events } := by
  refine ⟨fun c' => ?_, h.rules, h.ehs, h.participants,
    h.queued.matched hin fun ev hte => (hev ev hte).1,
    h.queued'.matched hin' fun ev hte => (hev ev hte).2, fun ev hmem => ?_, fun ev hmem => ?_,
    h.log⟩
  · rcases eq_or_ne c' c with rfl | hne
    · simp only [Function.update_self]
      exact hd
    · simp only [Function.update_of_ne hne]
      exact h.conds c'
  · exact mem_schedule.2 ((mem_schedule.1 hmem).imp_right (h.pending ev))
  · -- an event without effect stays so, unless the hit has scheduled the same
    rcases mem_schedule.1 hmem with hnew | hmem
    · exact .inl (mem_schedule.2 (.inl hnew))
    · rcases h.stale ev hmem with hold | hi
      · exact .inl (mem_schedule.2 (.inr hold))
      · rcases eq_or_ne ev.cond c with rfl | hne
        · by_cases hte : te = some (ev.ts, ev.sIdx, ev.tIdx)
          · exact .inl (mem_schedule.2 (.inl ⟨rfl, hte⟩))
          · simp only [Function.update_self]
            exact .inr (hinert _ _ _ hi hte)
        · simp only [Function.update_of_ne hne]
          exact .inr hi

omit [LinearOrder R] in
theorem sim_matchCond (c : C) (msg : Msg) : Lockstep (Twin cfg past past') (matchCond cfg c msg)
    (matchCond cfg c msg) := by
  intro e e' h
  simp only [matchCond, onCond, bind_apply, zoom]
  rcases Condition.matchMsg_twin cfg.lex msg (h.conds c) with
    ⟨d, d', hd, hkept, hkept', hm⟩ | ⟨d, d', change, te, hd, hm, hm', hin, hin', hev, hinert⟩
  · have htwin : Twin cfg past past' { e with conds := Function.update e.conds c d }
        { e' with conds := Function.update e'.conds c d' } := by
      refine h.matched none hd ?_ ?_ (by simp) ?_
      · exact fun s t hin => hkept.1 ▸ hin
      · exact fun s t hin => hkept'.1 ▸ hin
      · exact fun τ s t hi _ => hkept'.1 ▸ hi
    rcases hm with ⟨hm, hm'⟩ | ⟨err, hm, hm'⟩
    · rw [hm, hm']
      exact ⟨rfl, htwin⟩
    · rw [hm, hm']
      exact ⟨rfl, htwin⟩
  · rw [hm, hm']
    have htwin := h.matched te hd hin hin' hev hinert
    rcases te with _ | ⟨ts, s, t⟩
    · exact ⟨rfl, htwin⟩
    · exact ⟨rfl, htwin⟩

omit [LinearOrder R] in
theorem sim_matchConds (msg : Msg) : ∀ (cs : List C) (l : Changed C),
    Lockstep (Twin cfg past past') (matchConds cfg msg cs l) (matchConds cfg msg cs l)
  | [], _ => lockstep_pure _
  | c :: cs, l => by
    refine lockstep_bind (sim_matchCond c msg) fun change => ?_
    cases change with
    | none => exact sim_matchConds msg cs l
    | some change => exact lockstep_bind (sim_emit _) fun _ => sim_matchConds msg cs _

/-! ### The rules -/

theorem sim_evaluateRulesDomain : ∀ rs : List R,
    Lockstep (Twin cfg past past') (evaluateRulesDomain cfg rs) (evaluateRulesDomain cfg rs)
  | [] => lockstep_pure _
  | r :: rs => by
    refine lockstep_bind (sim_onRule fun e e' h => ?_) fun _ => sim_evaluateRulesDomain rs
    have hmaps : ∀ p, SameMap e.conds e'.conds p := fun p => (h.conds p.1).hitmap.args p.2
    simp only [Rule.evaluateDomain, Config.view, DomainExpr.evaluate,
      DomainCond.evaluateOr_congr fun p _ => hmaps p]

omit [LinearOrder R] in
theorem sim_act (r : R) : Lockstep (Twin cfg past past') (act cfg r) (act cfg r) := by
  refine sim_get_bind fun e e' h => ?_
  rw [h.ehs, h.rules, (h.agree r).act _ _ fun _ hm => hm]
  split_ifs
  · exact lockstep_bind (lockstep_orThrow _) (fun n => lockstep_pure _) e e' h
  · exact ⟨rfl, h⟩

theorem sim_raiseAlarm (now : ℤ) (r : R) : Lockstep (Twin cfg past past') (raiseAlarm cfg now r)
    (raiseAlarm cfg now r) := by
  refine lockstep_bind (sim_onRule fun e e' h => (h.agree r).evaluate now) fun fired => ?_
  cases fired with
  | false => exact lockstep_pure _
  | true =>
    refine sim_get_bind fun e e' h => ?_
    rw [h.rules, (h.agree r).message List.mem_cons_self]
    exact lockstep_bind (lockstep_orThrow _)
      (fun msg => lockstep_bind (sim_emit _) fun _ => sim_act r) e e' h

omit [LinearOrder R] in
/-- A reset of the same conditions and rules leaves twins twins. -/
theorem Twin.clear (h : Twin cfg past past' e e') (cs : C → Bool) (rs : R → Bool) :
    Twin cfg past past' (clear cfg cs rs e) (clear cfg cs rs e') := by
  have hin : ∀ (e : Engine C R) c s t, ((Engine.clear cfg cs rs e).conds c).hitmap.Inside s t ↔
      (e.conds c).hitmap.Inside s t := by
    intro e c s t
    simp only [Engine.clear]
    split_ifs <;> rfl
  refine ⟨fun c => ?_, ?_, h.ehs, h.participants,
    ⟨h.queued.sorted, fun ev hev => (hin e _ _ _).2 (h.queued.inside ev hev)⟩,
    ⟨h.queued'.sorted, fun ev hev => (hin e' _ _ _).2 (h.queued'.inside ev hev)⟩, h.pending,
    fun ev hev => (h.stale ev hev).imp_right fun hi => ?_, h.log⟩
  · simp only [Engine.clear]
    split_ifs
    · exact (h.conds c).reset
    · exact h.conds c
  · simp only [Engine.clear, h.rules]
  · simp only [Engine.clear]
    split_ifs
    · rw [(h.conds ev.cond).sound'.reset_cells]
      exact hi.reset
    · exact hi

theorem sim_evaluateRules (now : ℤ) : ∀ rs : List R,
    Lockstep (Twin cfg past past') (evaluateRules cfg now rs) (evaluateRules cfg now rs)
  | [] => lockstep_pure _
  | r :: rs => by
    refine lockstep_bind ?_ fun _ => sim_evaluateRules now rs
    refine lockstep_bind (sim_raiseAlarm now r) fun reset => ?_
    cases reset with
    | false => exact lockstep_pure _
    | true =>
      refine lockstep_bind (fun e e' h => ⟨rfl, ?_⟩)
        fun _ => sim_emit _
      have hclear := h.clear (fun c => c ∈ (cfg.rule r).conditions) (fun r' => r' = r)
      rw [← final_resetRuleOf, ← final_resetRuleOf] at hclear
      exact hclear

theorem sim_feed (msg : Msg) (now : ℤ) :
    Lockstep (Twin cfg past past') (feed cfg msg now) (feed cfg msg now) :=
  lockstep_bind (sim_matchConds msg _ _) fun _ =>
    lockstep_bind (sim_evaluateRulesDomain _) fun _ => sim_evaluateRules now _

/-! ### The timing events -/

omit [LinearOrder R] in
theorem Twin.sameDue (h : Twin cfg past past' e e') (due : TimingEvent C → Bool) (c : C) :
    SameDue (cfg.cond c) (e.events.filter due) (e'.events.filter due) e.conds e'.conds c := by
  have ht : ∀ s t, ((e'.conds c).hitmap.cells s t).tEvent = ((e.conds c).hitmap.cells s t).tEvent :=
    (h.conds c).hitmap.tEvent
  refine ⟨fun s t hd => ?_, fun s t hd => ?_⟩
  · obtain ⟨ev, hev, hc, hs, hi, hts⟩ := (isDue_iff _ _).1 hd
    obtain ⟨hev, hdue⟩ := List.mem_filter.1 hev
    exact (isDue_iff _ _).2 ⟨ev, List.mem_filter.2 ⟨h.pending ev hev, hdue⟩, hc, hs, hi,
      hts.trans (ht s t).symm⟩
  · obtain ⟨ev, hev, rfl, rfl, rfl, hts⟩ := (isDue_iff _ _).1 hd
    obtain ⟨hev, hdue⟩ := List.mem_filter.1 hev
    rcases h.stale ev hev with hold | hi
    · exact .inl ((isDue_iff _ _).2 ⟨ev, List.mem_filter.2 ⟨hold, hdue⟩, rfl, rfl, rfl,
        hts.trans (ht _ _)⟩)
    · exact .inr (hi.now hts)

variable (cfg) in
omit [LinearOrder R] in
theorem deliverDue_eq (h : Queued e.events e.conds) (now : ℤ) :
    (deliverDue cfg now e).1 = { e with
      conds := delivered cfg (e.events.filter fun ev => ev.ts < now) e.conds
      events := e.events.filter fun ev => !decide (ev.ts < now) } ∧
    ∀ c, c ∈ (deliverDue cfg now e).2 ↔ ∃ s t,
      isDue (e.events.filter fun ev => ev.ts < now) e.conds c s t = true ∧
        (cfg.cond c).eventStatus ≠ ((e.conds c).hitmap.cells s t).on := by
  obtain ⟨hdue, hlater⟩ := due_eq_filter now h.sorted
  obtain ⟨hconds, hstatus⟩ := deliver_eq cfg (e.events.filter fun ev => ev.ts < now) e.conds []
  simp only [List.not_mem_nil, false_or] at hstatus
  simp only [deliverDue, hdue, hlater, hconds]
  exact ⟨trivial, hstatus⟩

omit [LinearOrder R] in
theorem Queued.delivered {evs : List (TimingEvent C)} {conds : C → Condition}
    (h : Queued evs conds) (due : TimingEvent C → Bool) (evs' : List (TimingEvent C)) :
    Queued (evs.filter due) (Engine.delivered cfg evs' conds) :=
  ⟨h.sorted.filter due, fun ev hev => h.inside ev (List.mem_filter.1 hev).1⟩

omit [LinearOrder R] in
/-- Twins stay twins when the events that are due are delivered, and the same conditions flip. -/
theorem Twin.deliverDue (h : Twin cfg past past' e e') (now : ℤ) :
    Twin cfg past past' (deliverDue cfg now e).1 (deliverDue cfg now e').1 ∧
      ∀ c, c ∈ (Engine.deliverDue cfg now e').2 ↔ c ∈ (Engine.deliverDue cfg now e).2 := by
  obtain ⟨heq, hstatus⟩ := deliverDue_eq cfg h.queued now
  obtain ⟨heq', hstatus'⟩ := deliverDue_eq cfg h.queued' now
  have hdue := h.sameDue fun ev => ev.ts < now
  have hsound : ∀ {e : Engine C R}, Queued e.events e.conds → ∀ c, (e.conds c).Sound (cfg.cond c) →
      (delivered cfg (e.events.filter fun ev => ev.ts < now) e.conds c).Sound (cfg.cond c) :=
    fun hq c hs => sound_delivered hs fun ev hev => hq.inside ev (List.mem_filter.1 hev).1
  refine ⟨?_, fun c => ?_⟩
  · rw [heq, heq']
    refine ⟨fun c => ?_, h.rules, h.ehs, h.participants, h.queued.delivered _ _,
      h.queued'.delivered _ _, fun ev hev => ?_, fun ev hev => ?_, h.log⟩
    · exact twin_delivered (h.conds c) (hdue c) (hsound h.queued c (h.conds c).sound)
        (hsound h.queued' c (h.conds c).sound')
    · obtain ⟨hev, hlater⟩ := List.mem_filter.1 hev
      exact List.mem_filter.2 ⟨h.pending ev hev, hlater⟩
    · obtain ⟨hev, hlater⟩ := List.mem_filter.1 hev
      refine (h.stale ev hev).imp (fun hold => List.mem_filter.2 ⟨hold, hlater⟩) fun hi => ?_
      refine ⟨hi.ground, fun hts => ?_⟩
      rw [delivered_cells] at hts ⊢
      obtain ⟨hk, hoff⟩ := hi.now hts
      refine ⟨hk, ?_⟩
      simp only [hk, hoff, ite_self]
  · rw [hstatus, hstatus']
    exact flips_twin (h.conds c) (hdue c)

theorem sim_eventWorker (now tod : ℤ) : Lockstep (Twin cfg past past') (eventWorker cfg now tod)
    (eventWorker cfg now tod) := by
  intro e e' h
  obtain ⟨htwin, hstatus⟩ := h.deliverDue now
  have hlist : notifyStatus cfg { status := (deliverDue cfg now e').2 } =
      notifyStatus cfg { status := (deliverDue cfg now e).2 } :=
    cfg.mergeNotifyList_congr .status hstatus
  show Agree _ _ (evaluateRules cfg tod (notifyStatus cfg { status := (deliverDue cfg now e).2 })
      (deliverDue cfg now e).1)
    (evaluateRules cfg tod (notifyStatus cfg { status := (deliverDue cfg now e').2 })
      (deliverDue cfg now e').1)
  rw [hlist]
  exact sim_evaluateRules tod _ _ _ htwin

/-! ### Calls -/

theorem sim_enableRule (name : String) (flag : Bool) :
    Lockstep (Twin cfg past past') (enableRule cfg name flag) (enableRule cfg name flag) := by
  refine lockstep_bind (lockstep_orThrow _) fun r => sim_modify fun e e' h => ?_
  rw [h.rules]
  exact h.setRules _

omit [LinearOrder R] in
theorem sim_onParticipants (op : ParticipantsOp) :
    Lockstep (Twin cfg past past') (onParticipants op) (onParticipants op) := by
  refine sim_get_bind fun e e' h => ?_
  rw [h.participants]
  refine lockstep_bind (lockstep_orThrow _) (fun p => sim_modify fun e e' h => ?_) e e' h
  exact ⟨h.conds, h.rules, h.ehs, rfl, h.queued, h.queued', h.pending, h.stale, h.log⟩

/-- A call keeps twins twins. -/
theorem Twin.exec (h : Twin cfg past past' e e') (op : Op) :
    Twin cfg past past' (final (op.exec cfg) e) (final (op.exec cfg) e') := by
  have hreset : op.IsReset →
      Twin cfg past past' (final (op.exec cfg) e) (final (op.exec cfg) e') := by
    intro hop
    rw [final_reset_exec cfg e hop, final_reset_exec cfg e' hop]
    rcases op.resets cfg with _ | ⟨cs, rs⟩
    · exact h
    · exact h.clear cs rs
  cases op with
  | feed msg now => exact (sim_feed msg now).final h
  | eventWorker now tod => exact (sim_eventWorker now tod).final h
  | enableRule name flag => exact (sim_enableRule name flag).final h
  | enableEHS flag =>
    exact ⟨h.conds, h.rules, rfl, h.participants, h.queued, h.queued', h.pending, h.stale, h.log⟩
  | participants op => exact (sim_onParticipants op).final h
  | resetRule | resetRules | resetCond | resetConds | reset => exact hreset trivial

variable (cfg) in
/-- The state after a sequence of calls. -/
def after (ops : List Op) (e : Engine C R) : Engine C R :=
  ops.foldl (fun e op => final (op.exec cfg) e) e

/-- A sequence of calls keeps twins twins. -/
theorem Twin.after (h : Twin cfg past past' e e') (ops : List Op) :
    Twin cfg past past' (after cfg ops e) (Engine.after cfg ops e') := by
  induction ops generalizing e e' with
  | nil => exact h
  | cons op ops ih => exact ih (h.exec op)

omit [LinearOrder R] in
/-- A newly constructed engine is its own twin. -/
theorem twin_init : Twin cfg [] [] cfg.init cfg.init :=
  ⟨fun c => ⟨Condition.sound_init _, Condition.sound_init _,
      ⟨Hitmap.Alike.refl _, fun _ _ _ => rfl, fun _ _ => rfl⟩, .inl rfl, fun _ => rfl, fun _ => rfl,
      fun _ => rfl⟩,
    rfl, rfl, rfl, ⟨.nil, by simp [Config.init]⟩, ⟨.nil, by simp [Config.init]⟩, fun _ h => h,
    fun _ h => .inl h, [], rfl, rfl⟩

end Engine

/-- So every engine is its own twin: its temporaries are sound and its events are of cells there
are. -/
theorem Reachable.twin {cfg : Config C R} {e : Engine C R} (h : Reachable cfg e) :
    Engine.Twin cfg [] [] e e := by
  induction h with
  | refl => exact Engine.twin_init
  | tail _ hop ih =>
    obtain ⟨op, rfl⟩ := hop
    exact ih.exec op

end MfExtensions
