import MfExtensions.Lib.Machine
import MfExtensions.Proofs.Heeds
import MfExtensions.Proofs.Primitive
import MfExtensions.Proofs.Registration

/-!
# Alarms and bursts

While a rule of one `at_least` condition is on and is reset only together with the condition, it has
an alarm of just the names of which there has been a burst since the reset (`alarm_iff_burst`), and
the engine reports one just when a message makes a burst that was not there (`alarms_step`). So what
the rule reports is a function of the messages alone.
-/

namespace MfExtensions

open Exec Machine

variable {C R : Type} [DecidableEq C] [LinearOrder R]

/-! ## A rule of one condition -/

/-- The rule is the condition `c`, without a clause, and does not repeat its alarms. -/
structure RuleConfig.Solo (k : RuleConfig C) (c : C) : Prop where
  expr : k.booleanExpr = [[.cond c]]
  domain : k.domainExpr = []
  noRepeat : k.repeatAlarm = false

namespace RuleConfig.Solo

variable {k : RuleConfig C} {c : C}

theorem registered (h : k.Solo c) : k.booleanExpr.registered = [(c, true)] := by
  rw [h.expr]
  rfl

theorem conditions (h : k.Solo c) : k.conditions = [c] := by
  rw [RuleConfig.conditions, h.registered]
  rfl

theorem primitive (h : k.Solo c) : k.Primitive := by
  intro p hp
  rw [h.expr] at hp
  rw [List.mem_singleton.1 hp]

theorem stateless (h : k.Solo c) : k.booleanExpr.Stateless := by
  intro p hp obj
  rw [h.primitive p hp]
  simp

/-- The key of the cell of a name and a name. -/
def key (i j : ℕ) : Domain := [((i : ℤ), (j : ℤ))]

theorem key_inj {i j i' j' : ℕ} : key i j = key i' j' ↔ i = i' ∧ j = j' := by
  simp [key]

theorem fires_eq (h : k.Solo c) (V : View C) (sync : ℕ → SyncTable) (v : CondDomain) :
    Rule.fires k V sync ([condDomainCtorAny], [v]) =
      if (V.conds c).hitmap.status v then some [v] else none := by
  have hreading : BooleanCond.readingOr (cellOn V [c] [v]) [[.cond c]] =
      (V.conds c).hitmap.status v := by
    simp [BooleanCond.readingOr, BooleanCond.readingAnd, BooleanCond.reading, cellOn, Domain.at]
  have hvisited : BooleanCond.visitedOr (cellOn V [c] [v]) [[.cond c]] = [c] := by
    simp [BooleanCond.visitedOr, BooleanCond.visitedAnd, BooleanCond.visited]
  have hput : putCells [c] [v] (domainCtorNullOf 1) [c] = [v] := by
    simp [putCells, putCell, domainCtorNullOf, Domain.at, condDomainIsNull, condDomainCtorNull]
  unfold Rule.fires
  rw [Rule.evaluate_expr h.primitive V, h.expr, h.conditions]
  simp only [hreading, hvisited, List.length_singleton, hput]
  cases (V.conds c).hitmap.status v <;> rfl

theorem satisfying_iff (h : k.Solo c) {V : View C} {r : Rule C} {d : Domain}
    (hd : r.domains = [domainCtorAny k.conditions.length]) : r.Satisfying k V d ↔
      ∃ i < (V.conds c).hitmap.srcIdx.size, ∃ j < (V.conds c).hitmap.tgtIdx.size,
        ((V.conds c).hitmap.cells i j).on = true ∧ d = key i j := by
  have hone : domainCtorAny k.conditions.length = [condDomainCtorAny] := by
    rw [h.conditions]
    rfl
  have hcells : Rule.assignments V (k.booleanExpr.registered.zip [condDomainCtorAny]) =
      (Rule.cells V ((c, true), condDomainCtorAny)).map fun v => [v] := by
    rw [h.registered]
    exact List.map_eq_flatMap.symm
  constructor
  · rintro ⟨⟨d', value⟩, hp, hfires⟩
    obtain ⟨hd', hv⟩ := (Rule.mem_tries k V).1 hp
    rw [hd, hone, List.mem_singleton] at hd'
    simp only at hd' hv
    subst hd'
    rw [hcells, List.mem_map] at hv
    obtain ⟨v, hv, rfl⟩ := hv
    obtain ⟨i, hi, j, hj, rfl⟩ := (Hitmap.mem_cells_any V c).1 hv
    rw [h.fires_eq] at hfires
    split_ifs at hfires with hon
    exact ⟨i, hi, j, hj, hon, (Option.some_inj.1 hfires).symm⟩
  · rintro ⟨i, hi, j, hj, hon, rfl⟩
    refine ⟨([condDomainCtorAny], key i j), (Rule.mem_tries k V).2 ⟨?_, ?_⟩, ?_⟩
    · rw [hd, hone]
      exact List.mem_singleton_self _
    · rw [hcells]
      exact List.mem_map_of_mem ((Hitmap.mem_cells_any V c).2 ⟨i, hi, j, hj, rfl⟩)
    · rw [key, h.fires_eq, if_pos]
      exact hon

end RuleConfig.Solo

/-! ## What is reported -/

namespace Engine

variable {cfg : Config C R} {e e' : Engine C R} {msg : Msg} {now : ℤ}

omit [LinearOrder R] in
theorem alarmsOf_emit_condMatch (r : R) (c : C) (e : Engine C R) :
    alarmsOf cfg r { e with log := e.log ++ [.condMatch (cfg.cond c).name] } =
      alarmsOf cfg r e := by
  simp [alarmsOf, Output.isAlarmOf]

theorem alarmsOf_emit_alarm (r r' : R) (text : String) (e : Engine C R) :
    alarmsOf cfg r' { e with log := e.log ++ [.alarm (cfg.rule r).name text] } =
      alarmsOf cfg r' e + if r' = r then 1 else 0 := by
  have hname : (cfg.rule r).name = (cfg.rule r').name ↔ r' = r :=
    ⟨fun h => (cfg.ruleName_inj _ _ h).symm, fun h => by rw [h]⟩
  simp [alarmsOf, Output.isAlarmOf, hname, List.countP_cons]

/-- Without error handling a rule is reported just when its evaluation raises an alarm. -/
theorem evaluateRule_alarmsOf {r : R} (hEHS : e.EHS = false)
    (h : evaluateRule cfg now r e = .ok () e') : ∃ fired rl,
      Rule.evaluate (cfg.rule r) (cfg.view e) now (e.rules r) = .ok fired rl ∧
      ∀ r', alarmsOf cfg r' e' = alarmsOf cfg r' e + if fired = true ∧ r' = r then 1 else 0 := by
  simp only [evaluateRule, raiseAlarm, bind_apply, onRule_apply] at h
  rcases hev : Rule.evaluate (cfg.rule r) (cfg.view e) now (e.rules r) with
    ⟨_ | _, rl⟩ | ⟨err, rl⟩ <;> rw [hev] at h
  · cases h
    exact ⟨false, rl, rfl, fun r' => by simp [alarmsOf]⟩
  · simp only [if_true, bind_apply, get_apply] at h
    rcases hmsg : RichMsg.message (cfg.rule r)
      (cfg.view { e with rules := Function.update e.rules r rl })
      (cfg.rule r).alarmMsg (Function.update e.rules r rl r) with err | text <;> rw [hmsg] at h
    · cases h
    · simp only [orThrow_ok, emit, modify_apply, act, bind_apply, get_apply, hEHS,
        Bool.false_eq_true, if_false, pure_apply, EStateM.Result.ok.injEq] at h
      obtain ⟨-, rfl⟩ := h
      refine ⟨true, rl, rfl, fun r' => ?_⟩
      simp only [true_and]
      exact alarmsOf_emit_alarm r r' text { e with rules := Function.update e.rules r rl }
  · cases h

/-- So it is in a pass, where each rule is evaluated once. -/
theorem evaluateRules_alarmsOf : ∀ {rs : List R}, rs.Nodup → ∀ {e e' : Engine C R},
    e.EHS = false → evaluateRules cfg now rs e = .ok () e' → ∀ r,
      (r ∉ rs → alarmsOf cfg r e' = alarmsOf cfg r e) ∧
      (r ∈ rs → ∀ fired rl,
        Rule.evaluate (cfg.rule r) (cfg.view e) now (e.rules r) = .ok fired rl →
          alarmsOf cfg r e' = alarmsOf cfg r e + if fired then 1 else 0)
  | [], _, e, e', _, h, r => by
    cases h
    exact ⟨fun _ => rfl, fun h => by simp at h⟩
  | r₁ :: rs, hnd, e, e', hEHS, h, r => by
    obtain ⟨hr₁, hnd⟩ := List.nodup_cons.1 hnd
    obtain ⟨⟨⟩, e₁, h₁, h⟩ := bind_ok.1 h
    obtain ⟨fired, rl, hev, hcount⟩ := evaluateRule_alarmsOf hEHS h₁
    obtain ⟨_, _, -, hrules, hconds, hE, hpart⟩ := evaluateRule_ok cfg hEHS h₁
    obtain ⟨hout, hin⟩ := evaluateRules_alarmsOf hnd (hE.trans hEHS) h r
    have hview : cfg.view e₁ = cfg.view e := by
      unfold Config.view
      rw [hconds, hpart]
    refine ⟨fun hr => ?_, fun hr fired' rl' hev' => ?_⟩
    · rw [List.mem_cons, not_or] at hr
      rw [hout hr.2, hcount]
      simp [hr.1]
    · rcases eq_or_ne r r₁ with rfl | hne
      · rw [hev] at hev'
        cases hev'
        rw [hout hr₁, hcount]
        simp
      · rw [hview, hrules, Function.update_of_ne hne] at hin
        rw [hin ((List.mem_cons.1 hr).resolve_left hne) _ _ hev', hcount]
        simp [hne]

theorem evaluateRules_events (now : ℤ) (rs : List R) :
    Moves (fun e e' : Engine C R => e'.events = e.events) (evaluateRules cfg now rs) := by
  refine moves_evaluateRules cfg (Pre.frame events) rs fun r _ => ?_
  refine moves_evaluateRule cfg (Pre.frame events) (fun e => ?_)
    (fun _ => moves_modify fun _ => rfl) (moves_modify fun _ => rfl)
  rw [final_onRule]

omit [LinearOrder R] in
theorem matchCond_matched {c : C} {r : Option Change} (h : matchCond cfg c msg e = .ok r e') :
    ∃ x, Condition.matchMsg cfg.lex (cfg.cond c) msg (e.conds c) = .ok x (e'.conds c) ∧
      r = x.map Prod.fst ∧ e'.events = schedule c (x.bind Prod.snd) e.events ∧
      e'.log = e.log := by
  simp only [matchCond, onCond, bind_apply, zoom] at h
  rcases hm : Condition.matchMsg cfg.lex (cfg.cond c) msg (e.conds c) with
    ⟨x, c₁⟩ | ⟨err, c₁⟩ <;> rw [hm] at h
  · have hself := (Function.update_self c c₁ e.conds).symm
    rcases x with _ | ⟨change, _ | ⟨ts, s, t⟩⟩ <;> cases h <;>
      exact ⟨_, congrArg (EStateM.Result.ok _) hself, rfl, rfl, rfl⟩
  · cases h

omit [LinearOrder R] in
/-- The loop through the conditions reports no alarm, and schedules for a condition only what its
own match asks for. -/
theorem matchConds_matched : ∀ {cs : List C} {l l' : Changed C} {e e' : Engine C R}, cs.Nodup →
    matchConds cfg msg cs l e = .ok l' e' →
    (∀ r, alarmsOf cfg r e' = alarmsOf cfg r e) ∧
    (∀ c ∈ cs, ∃ x, Condition.matchMsg cfg.lex (cfg.cond c) msg (e.conds c) = .ok x (e'.conds c) ∧
      ∀ ev ∈ e'.events, ev.cond = c →
        x.bind Prod.snd = some (ev.ts, ev.sIdx, ev.tIdx) ∨ ev ∈ e.events) ∧
    ∀ c ∉ cs, ∀ ev ∈ e'.events, ev.cond = c → ev ∈ e.events
  | [], _, _, _, _, _, h => by
    cases h
    exact ⟨fun _ => rfl, by simp, fun _ _ _ hev _ => hev⟩
  | c :: cs, l, l', e, e', hnd, h => by
    obtain ⟨hc, hnd⟩ := List.nodup_cons.1 hnd
    obtain ⟨r, e₁, h₁, h⟩ := bind_ok.1 h
    obtain ⟨x, hm, -, hevents, hlog⟩ := matchCond_matched h₁
    obtain ⟨-, hother⟩ := matchCond_ok h₁
    obtain ⟨l₁, e₂, h₂, hconds, hevents₂, hcount⟩ : ∃ l₁ e₂,
        matchConds cfg msg cs l₁ e₂ = .ok l' e' ∧ e₂.conds = e₁.conds ∧ e₂.events = e₁.events ∧
          ∀ r, alarmsOf cfg r e₂ = alarmsOf cfg r e := by
      have hsame : ∀ r, alarmsOf cfg r e₁ = alarmsOf cfg r e := fun r => by
        rw [alarmsOf, hlog, alarmsOf]
      cases r with
      | none => exact ⟨_, _, h, rfl, rfl, hsame⟩
      | some change =>
        obtain ⟨⟨⟩, e₂, hemit, h⟩ := bind_ok.1 h
        cases hemit
        exact ⟨_, _, h, rfl, rfl, fun r => (alarmsOf_emit_condMatch r c e₁).trans (hsame r)⟩
    obtain ⟨hcount', hin, hout⟩ := matchConds_matched hnd h₂
    have hkept := (matchConds_ok hnd h₂).2
    rw [hconds] at hin hkept
    rw [hevents₂, hevents] at hin hout
    have hsched : ∀ ev ∈ schedule c (x.bind Prod.snd) e.events, ev.cond ≠ c → ev ∈ e.events :=
      fun ev hev hne => (mem_schedule.1 hev).resolve_left fun h => hne h.1
    refine ⟨fun r => (hcount' r).trans (hcount r), List.forall_mem_cons.2 ⟨⟨x, ?_, ?_⟩, ?_⟩, ?_⟩
    · rw [hkept c hc]
      exact hm
    · intro ev hev hcond
      exact (mem_schedule.1 (hout c hc ev hev hcond)).imp_left And.right
    · intro c' hc'
      have hne : c' ≠ c := fun heq => hc (heq ▸ hc')
      obtain ⟨x', hm', hev'⟩ := hin c' hc'
      rw [hother c' hne] at hm'
      exact ⟨x', hm', fun ev hev hcond => (hev' ev hev hcond).imp_right fun h =>
        hsched ev h (hcond ▸ hne)⟩
    · intro c' hc' ev hev hcond
      rw [List.mem_cons, not_or] at hc'
      exact hsched ev (hout c' hc'.2 ev hev hcond) (hcond ▸ hc'.1)

end Engine

/-! ## An evaluation -/

namespace RuleConfig.Solo

variable {k : RuleConfig C} {c : C} {V : View C} {rl rl' : Rule C} {now : ℤ} {fired : Bool}
  {old : ℕ → ℕ → Prop}

/-- An evaluation after which at most one cell can be on that has no alarm: it raises that alarm, if
there is one. -/
theorem evaluate_bursts (h : k.Solo c) (hwf : rl.WF k) (hen : rl.enabled = true)
    (halarms : ∀ d, d ∈ rl.alarms.map Prod.fst ↔ ∃ i j, d = key i j ∧ old i j)
    (hrange : ∀ i j, ((V.conds c).hitmap.cells i j).on = true →
      i < (V.conds c).hitmap.srcIdx.size ∧ j < (V.conds c).hitmap.tgtIdx.size)
    (hone : ∀ i j i' j', ((V.conds c).hitmap.cells i j).on = true → ¬old i j →
      ((V.conds c).hitmap.cells i' j').on = true → ¬old i' j' → i = i' ∧ j = j')
    (hev : Rule.evaluate k V now rl = .ok fired rl') :
    (∀ d, d ∈ rl'.alarms.map Prod.fst ↔
      ∃ i j, d = key i j ∧ (old i j ∨ ((V.conds c).hitmap.cells i j).on = true)) ∧
    (fired = true ↔ ∃ i j, ((V.conds c).hitmap.cells i j).on = true ∧ ¬old i j) := by
  have hd := hwf.any h.domain
  have hkey : ∀ i j, key i j ∈ rl.alarms.map Prod.fst ↔ old i j := by
    intro i j
    rw [halarms]
    constructor
    · rintro ⟨i', j', heq, hold⟩
      obtain ⟨rfl, rfl⟩ := key_inj.1 heq
      exact hold
    · exact fun hold => ⟨i, j, rfl, hold⟩
  cases fired with
  | false =>
    obtain ⟨rfl, -, hrec⟩ := Rule.evaluate_false h.stateless h.noRepeat hen hwf.noNull hev
    have hon : ∀ i j, ((V.conds c).hitmap.cells i j).on = true → old i j := by
      intro i j hon
      obtain ⟨hi, hj⟩ := hrange i j hon
      exact (hkey i j).1 (hrec _ ((h.satisfying_iff hd).2 ⟨i, hi, j, hj, hon, rfl⟩))
    refine ⟨fun d => (halarms d).trans ?_, iff_of_false Bool.false_ne_true ?_⟩
    · exact exists_congr fun i => exists_congr fun j => and_congr_right fun _ =>
        (or_iff_left_of_imp (hon i j)).symm
    · rintro ⟨i, j, h, hnot⟩
      exact hnot (hon i j h)
  | true =>
    obtain ⟨d₀, hsat, hnew, rfl⟩ := Rule.evaluate_true h.stateless h.noRepeat hen hwf.noNull hev
    obtain ⟨i₀, -, j₀, -, hon₀, rfl⟩ := (h.satisfying_iff hd).1 hsat
    rw [hkey] at hnew
    refine ⟨fun d => ?_, iff_of_true rfl ⟨i₀, j₀, hon₀, hnew⟩⟩
    simp only [Rule.raise, List.map_append, List.mem_append, halarms, List.map_cons, List.map_nil,
      List.mem_singleton]
    constructor
    · rintro (⟨i, j, rfl, hold⟩ | rfl)
      · exact ⟨i, j, rfl, .inl hold⟩
      · exact ⟨i₀, j₀, rfl, .inr hon₀⟩
    · rintro ⟨i, j, rfl, hold | hon⟩
      · exact .inl ⟨i, j, rfl, hold⟩
      · by_cases hold : old i j
        · exact .inl ⟨i, j, rfl, hold⟩
        · obtain ⟨rfl, rfl⟩ := hone i j i₀ j₀ hon hold hon₀ hnew
          exact .inr rfl

end RuleConfig.Solo

/-! ## What a run keeps -/

open RuleConfig.Solo (key)

variable {cfg : Config C R} {c : C} {r : R} {w w' : Watched C R}

/-- The messages of two names come in the order of their times, the rule is on and is reset only
together with the condition, and there is no error handling. -/
def Watched.Ok (cfg : Config C R) (c : C) (r : R) : Op → Watched C R → Prop
  | .feed msg _, w => (cfg.cond c).takes msg cfg.lex = true → 0 ≤ msg.time ∧
      ∀ p ∈ w.taken, p.1 = (cfg.cond c).names msg → p.2.time ≤ msg.time
  | .eventWorker _ _, _ | .participants _, _ => True
  | .enableRule name flag, _ => flag = true ∨ name ≠ (cfg.rule r).name
  | .enableEHS flag, _ => flag = false
  | op, _ => ∀ cs rs, op.resets cfg = some (cs, rs) → cs c = rs r

/-- The rule has an alarm of just the cells of which there has been a burst. -/
structure Watching (cfg : Config C R) (c : C) (r : R) (w : Watched C R) : Prop where
  reachable : Reachable cfg w.engine
  ehs : w.engine.EHS = false
  enabled : (w.engine.rules r).enabled = true
  heeds : (w.engine.conds c).hitmap.Heeds (cfg.cond c) w.taken
  events : ∀ ev ∈ w.engine.events, ev.cond = c → 1 ≤ ev.ts
  alarms : ∀ d, d ∈ (w.engine.rules r).alarms.map Prod.fst ↔ ∃ i j, d = key i j ∧
    (cfg.cond c).HasBurst ((w.engine.conds c).hitmap.came w.taken i j)

namespace Engine

variable {e e' : Engine C R} {l : Changed C} {now : ℤ} {old : ℕ → ℕ → Prop}

/-- The pass over the rules that a change of status notifies: the rule gets an alarm of each cell
that is on, and one is reported if there was a cell on without one. -/
theorem pass_bursts (hr : (cfg.rule r).Solo c) (hwf : e.WF cfg) (hE : e.EHS = false)
    (hen : (e.rules r).enabled = true)
    (halarms : ∀ d, d ∈ (e.rules r).alarms.map Prod.fst ↔ ∃ i j, d = key i j ∧ old i j)
    (hrange : ∀ i j, ((e.conds c).hitmap.cells i j).on = true →
      i < (e.conds c).hitmap.srcIdx.size ∧ j < (e.conds c).hitmap.tgtIdx.size)
    (hone : ∀ i j i' j', ((e.conds c).hitmap.cells i j).on = true → ¬old i j →
      ((e.conds c).hitmap.cells i' j').on = true → ¬old i' j' → i = i' ∧ j = j')
    (hflip : c ∉ l.status → ∀ i j, ((e.conds c).hitmap.cells i j).on = true → old i j)
    (h : evaluateRules cfg now (notifyStatus cfg l) e = .ok () e') :
    e'.conds = e.conds ∧
    (∀ d, d ∈ (e'.rules r).alarms.map Prod.fst ↔
      ∃ i j, d = key i j ∧ (old i j ∨ ((e.conds c).hitmap.cells i j).on = true)) ∧
    ((∃ i j, ((e.conds c).hitmap.cells i j).on = true ∧ ¬old i j) ∧
        alarmsOf cfg r e' = alarmsOf cfg r e + 1 ∨
      (∀ i j, ((e.conds c).hitmap.cells i j).on = true → old i j) ∧
        alarmsOf cfg r e' = alarmsOf cfg r e) := by
  have hnd : (notifyStatus cfg l).Nodup :=
    (cfg.mergeNotifyList_sorted .status _ .nil).imp ne_of_lt
  obtain ⟨hconds, -, hall⟩ := evaluateRules_ok cfg hnd hE h
  obtain ⟨hsame, hcount⟩ := evaluateRules_alarmsOf hnd hE h r
  refine ⟨hconds, ?_⟩
  by_cases hmem : r ∈ notifyStatus cfg l
  · obtain ⟨fired, hev⟩ := (hall r).2 hmem
    obtain ⟨hkeys, hfired⟩ :=
      hr.evaluate_bursts (hwf.rules r) hen halarms hrange hone hev
    refine ⟨hkeys, ?_⟩
    have hcount := hcount hmem _ _ hev
    cases fired with
    | false =>
      refine .inr ⟨fun i j hon => ?_, hcount⟩
      by_contra hold
      exact Bool.false_ne_true (hfired.2 ⟨i, j, hon, hold⟩)
    | true => exact .inl ⟨hfired.1 rfl, hcount⟩
  · have hstatus : c ∉ l.status := fun hc =>
      hmem (mem_notifyStatus.2 ⟨c, by rw [hr.expr]; exact List.mem_singleton_self c, hc⟩)
    have hon := hflip hstatus
    refine ⟨fun d => ?_, .inr ⟨hon, hsame hmem⟩⟩
    rw [(hall r).1 hmem, halarms]
    exact exists_congr fun i => exists_congr fun j => and_congr_right fun _ =>
      (or_iff_left_of_imp (hon i j)).symm

end Engine

/-- A feed up to the evaluation of the rules, for a condition and a rule without a clause. -/
structure Engine.Matched (cfg : Config C R) (c : C) (r : R) (msg : Msg) (l : Changed C)
    (x : Option (Change × Option Hitmap.CellEvent)) (e e₂ : Engine C R) : Prop where
  matchMsg : Condition.matchMsg cfg.lex (cfg.cond c) msg (e.conds c) = .ok x (e₂.conds c)
  events : ∀ ev ∈ e₂.events, ev.cond = c →
    x.bind Prod.snd = some (ev.ts, ev.sIdx, ev.tIdx) ∨ ev ∈ e.events
  status : c ∉ l.status → ∀ i j,
    ((e₂.conds c).hitmap.cells i j).on = ((e.conds c).hitmap.cells i j).on
  rule : e₂.rules r = e.rules r
  ehs : e₂.EHS = e.EHS
  count : e₂.alarmsOf cfg r = e.alarmsOf cfg r
  wf : e₂.WF cfg

theorem Engine.matched_of_feed {e e' : Engine C R} {msg : Msg} {now : ℤ} (he : Reachable cfg e)
    (hr : (cfg.rule r).domainExpr = []) (h : feed cfg msg now e = .ok () e') (c : C) :
    ∃ l x e₂, Matched cfg c r msg l x e e₂ ∧
      evaluateRules cfg now (notifyStatus cfg l) e₂ = .ok () e' := by
  obtain ⟨l, e₁, h₁, h⟩ := bind_ok.1 h
  obtain ⟨⟨⟩, e₂, h₂, h₃⟩ := bind_ok.1 h
  obtain ⟨hcount, hin, -⟩ := matchConds_matched cfg.cmap_nodup h₁
  obtain ⟨x, hm, hev⟩ := hin c (cfg.mem_cmap c)
  have hbuilt : ∀ c ∈ cfg.cmap, (e.conds c).hitmap.Built :=
    fun c _ => (he.twin.conds c).sound.built
  obtain ⟨hstatus, -⟩ := matchConds_reported cfg.cmap_nodup hbuilt h₁ c
  obtain ⟨hrules, hE, -⟩ := (matchConds_rulesKept cfg msg _ _).of_ok h₁
  have hwf : e₂.WF cfg := he.passed.wf.steps anyReset
    (((matchConds_steps cfg anyReset msg _ _).of_ok h₁).trans
      ((evaluateRulesDomain_steps cfg anyReset l).of_ok h₂))
  obtain ⟨ds, hds⟩ := exists_domains cfg e₁.conds
  rw [evaluateRulesDomain_ok cfg _ e₁ hds] at h₂
  cases h₂
  refine ⟨l, x, setDomains (notifyDomain cfg l) ds e₁,
    ⟨hm, hev, fun hc i j => ?_, ?_, hE, hcount r, hwf⟩, h₃⟩
  · by_contra hne
    exact hc (hstatus.2 (.inr ⟨i, j, hne⟩))
  · have hmem : r ∉ notifyDomain cfg l := fun hmem => args_ne_nil_of_mem cfg hmem (by rw [hr]; rfl)
    show (if r ∈ notifyDomain cfg l then _ else e₁.rules r) = _
    rw [if_neg hmem, hrules]

open Engine

/-- The pass that ends a feed, or follows the events, keeps what a run keeps. -/
theorem Watching.pass (hk : (cfg.cond c).Bursty) (hr : (cfg.rule r).Solo c)
    (h : Watching cfg c r w) {e e' : Engine C R} {taken : Taken} {l : Changed C} {now : ℤ}
    (hwf : e.WF cfg) (hE : e.EHS = false) (hrule : e.rules r = w.engine.rules r)
    (hheeds : (e.conds c).hitmap.Heeds (cfg.cond c) taken)
    (hburst : ∀ i j, (cfg.cond c).HasBurst ((e.conds c).hitmap.came taken i j) ↔
      (cfg.cond c).HasBurst ((w.engine.conds c).hitmap.came w.taken i j) ∨
        ((e.conds c).hitmap.cells i j).on = true)
    (hone : ∀ i j i' j', ((e.conds c).hitmap.cells i j).on = true →
      ¬(cfg.cond c).HasBurst ((w.engine.conds c).hitmap.came w.taken i j) →
      ((e.conds c).hitmap.cells i' j').on = true →
      ¬(cfg.cond c).HasBurst ((w.engine.conds c).hitmap.came w.taken i' j') → i = i' ∧ j = j')
    (hflip : c ∉ l.status → ∀ i j, ((e.conds c).hitmap.cells i j).on = true →
      (cfg.cond c).HasBurst ((w.engine.conds c).hitmap.came w.taken i j))
    (hevents : ∀ ev ∈ e.events, ev.cond = c → 1 ≤ ev.ts) (hreach : Reachable cfg e')
    (hpass : evaluateRules cfg now (notifyStatus cfg l) e = .ok () e') :
    Watching cfg c r ⟨e', taken⟩ ∧
      ((∃ i j, ((e.conds c).hitmap.cells i j).on = true ∧
          ¬(cfg.cond c).HasBurst ((w.engine.conds c).hitmap.came w.taken i j)) ∧
        alarmsOf cfg r e' = alarmsOf cfg r e + 1 ∨
      (∀ i j, ((e.conds c).hitmap.cells i j).on = true →
          (cfg.cond c).HasBurst ((w.engine.conds c).hitmap.came w.taken i j)) ∧
        alarmsOf cfg r e' = alarmsOf cfg r e) := by
  have hen : (e.rules r).enabled = true := by
    rw [hrule]
    exact h.enabled
  have halarms := h.alarms
  rw [← hrule] at halarms
  obtain ⟨hconds, hkeys, hcount⟩ := pass_bursts hr hwf hE hen halarms
    (fun i j => hheeds.lt_of_on hk (hwf.conds c)) hone hflip hpass
  have hsame := (evaluateRules_unswitched cfg now _).of_ok hpass
  simp only [Prod.mk.injEq, funext_iff] at hsame
  refine ⟨⟨hreach, hsame.1.trans hE, (hsame.2.2 r).trans hen, ?_, ?_, fun d => ?_⟩, hcount⟩
  · show (e'.conds c).hitmap.Heeds _ _
    rw [hconds]
    exact hheeds
  · show ∀ ev ∈ e'.events, _
    rw [(evaluateRules_events now _).of_ok hpass]
    exact hevents
  · show d ∈ (e'.rules r).alarms.map Prod.fst ↔ ∃ i j, d = key i j ∧
      (cfg.cond c).HasBurst ((e'.conds c).hitmap.came taken i j)
    rw [hkeys, hconds]
    exact exists_congr fun i => exists_congr fun j => and_congr_right fun _ => (hburst i j).symm

/-- A call that reports an alarm makes a burst that was not there; any other makes none. -/
def Watching.Reports (cfg : Config C R) (c : C) (r : R) (op : Op) (w w' : Watched C R) : Prop :=
  (∃ msg now, op = .feed msg now ∧ (cfg.cond c).BurstOf ((cfg.cond c).names msg) w'.taken ∧
      ¬(cfg.cond c).BurstOf ((cfg.cond c).names msg) w.taken) ∧
    w'.engine.alarmsOf cfg r = w.engine.alarmsOf cfg r + 1 ∨
  (∀ x, (cfg.cond c).BurstOf x w'.taken → (cfg.cond c).BurstOf x w.taken) ∧
    w'.engine.alarmsOf cfg r = w.engine.alarmsOf cfg r

/-- What a run keeps a feed keeps, and a new burst is reported. -/
theorem Watching.feed (hk : (cfg.cond c).Bursty) (hr : (cfg.rule r).Solo c)
    (h : Watching cfg c r w) {msg : Msg} {now : ℤ} (hok : w.Ok cfg c r (.feed msg now))
    {e' : Engine C R} (hfeed : Engine.feed cfg msg now w.engine = .ok () e') :
    Watching cfg c r ⟨e', Watched.take cfg c (.feed msg now) w.taken⟩ ∧
      Reports cfg c r (.feed msg now) w ⟨e', Watched.take cfg c (.feed msg now) w.taken⟩ := by
  obtain ⟨l, x, e₂, hm, hpass⟩ := Engine.matched_of_feed h.reachable hr.domain hfeed c
  have hreach : Reachable cfg e' := by
    have hstep := h.reachable.step (.feed msg now)
    rwa [show final ((Op.feed msg now).exec cfg) w.engine = e' from final_ok hfeed] at hstep
  have hsound := (h.reachable.twin.conds c).sound
  have hon := fun i j => (h.heeds.cells i j).on
  have hflip : c ∉ l.status → ∀ i j, ((e₂.conds c).hitmap.cells i j).on = true →
      (cfg.cond c).HasBurst ((w.engine.conds c).hitmap.came w.taken i j) := fun hc i j h =>
    hon i j (hm.status hc i j ▸ h)
  rcases Condition.matchMsg_takes hsound hm.matchMsg with
    ⟨rfl, htakes, hhit⟩ | ⟨change, te, rfl, htakes, hcap⟩
  · -- the condition is not about the message
    have htaken : Watched.take cfg c (.feed msg now) w.taken = w.taken := by
      simp [Watched.take, htakes]
    have hheeds := h.heeds
    rw [htaken]
    rw [← hhit] at hheeds hon hflip
    obtain ⟨hwatch, hcount⟩ := h.pass hk hr hm.wf (hm.ehs.trans h.ehs) hm.rule hheeds
      (fun i j => by rw [← hhit]; exact (or_iff_left_of_imp (hon i j)).symm)
      (fun i j _ _ h hold => absurd (hhit ▸ hon i j h) hold) (hhit ▸ hflip)
      (fun ev hev hcond => h.events ev ((hm.events ev hev hcond).resolve_left (by simp)) hcond)
      hreach hpass
    refine ⟨hwatch, .inr ⟨fun _ => id, ?_⟩⟩
    rcases hcount with ⟨⟨i, j, h, hold⟩, -⟩ | ⟨-, hcount⟩
    · exact absurd (hhit ▸ hon i j h) hold
    · exact hcount.trans hm.count
  · -- it is, and the message goes to the cell of its names
    obtain ⟨h0, hle⟩ := hok htakes
    have htaken : Watched.take cfg c (.feed msg now) w.taken =
        w.taken ++ [((cfg.cond c).names msg, msg)] := by simp [Watched.take, htakes]
    have htook : Hitmap.Took (cfg.cond c) w.taken ((cfg.cond c).names msg) msg te
        (w.engine.conds c).hitmap (e₂.conds c).hitmap :=
      h.heeds.capture hk hsound.built h0 hle hcap
    obtain ⟨i₀, j₀, hat, hcame, hother⟩ := htook.own
    have hown : ∀ i j, ((e₂.conds c).hitmap.cells i j).on = true →
        ¬(cfg.cond c).HasBurst ((w.engine.conds c).hitmap.came w.taken i j) →
        i = i₀ ∧ j = j₀ := by
      intro i j hcell hold
      by_contra hne
      rw [hother i j hne] at hcell
      exact hold (hon i j hcell)
    have hevents : ∀ ev ∈ e₂.events, ev.cond = c → 1 ≤ ev.ts := fun ev hev hcond =>
      (hm.events ev hev hcond).elim (fun hnew => htook.event _ hnew)
        fun hold => h.events ev hold hcond
    obtain ⟨hwatch, hcount⟩ := h.pass hk hr hm.wf (hm.ehs.trans h.ehs) hm.rule htook.heeds
      htook.burst (fun i j i' j' hcell hold hcell' hold' =>
        ⟨(hown i j hcell hold).1.trans (hown i' j' hcell' hold').1.symm,
          (hown i j hcell hold).2.trans (hown i' j' hcell' hold').2.symm⟩)
        hflip hevents hreach hpass
    rw [htaken]
    refine ⟨hwatch, ?_⟩
    have hbefore : (cfg.cond c).BurstOf ((cfg.cond c).names msg) w.taken ↔
        (cfg.cond c).HasBurst ((w.engine.conds c).hitmap.came w.taken i₀ j₀) := by
      rw [hcame]
      rfl
    have hafter : (cfg.cond c).BurstOf ((cfg.cond c).names msg)
          (w.taken ++ [((cfg.cond c).names msg, msg)]) ↔
        (cfg.cond c).BurstOf ((cfg.cond c).names msg) w.taken ∨
          ((e₂.conds c).hitmap.cells i₀ j₀).on = true := by
      rw [hbefore, ← htook.burst, (hm.wf.conds c).came_eq hat]
      rfl
    rcases hcount with ⟨⟨i, j, hcell, hold⟩, hcount⟩ | ⟨hall, hcount⟩
    · obtain ⟨rfl, rfl⟩ := hown i j hcell hold
      exact .inl ⟨⟨msg, now, rfl, hafter.2 (.inr hcell), hbefore.not.2 hold⟩,
        hcount.trans (congrArg (· + 1) hm.count)⟩
    · refine .inr ⟨fun x hx => ?_, hcount.trans hm.count⟩
      by_cases hname : (cfg.cond c).names msg = x
      · subst hname
        rcases hafter.1 hx with hx | hcell
        · exact hx
        · exact hbefore.2 (hall _ _ hcell)
      · unfold CondConfig.BurstOf at hx
        rwa [Burst.named_concat, if_neg hname] at hx

/-- So does a pass of the event worker, and it reports nothing. -/
theorem Watching.eventWorker (hk : (cfg.cond c).Bursty) (hr : (cfg.rule r).Solo c)
    (h : Watching cfg c r w) {now tod : ℤ} {e' : Engine C R}
    (hpass : Engine.eventWorker cfg now tod w.engine = .ok () e') :
    Watching cfg c r ⟨e', w.taken⟩ ∧ alarmsOf cfg r e' = alarmsOf cfg r w.engine := by
  have hreach : Reachable cfg e' := by
    have hstep := h.reachable.step (.eventWorker now tod)
    rwa [show final ((Op.eventWorker now tod).exec cfg) w.engine = e' from final_ok hpass] at hstep
  have hpass : evaluateRules cfg tod
      (notifyStatus cfg { status := (deliverDue cfg now w.engine).2 })
      (deliverDue cfg now w.engine).1 = .ok () e' := hpass
  have hwf : (deliverDue cfg now w.engine).1.WF cfg :=
    h.reachable.passed.wf.steps anyReset (deliverDue_steps now w.engine)
  obtain ⟨heq, -⟩ := deliverDue_eq cfg h.reachable.twin.queued now
  rw [heq] at hpass hwf
  have hheeds : (delivered cfg (w.engine.events.filter fun ev => ev.ts < now)
      w.engine.conds c).hitmap.Heeds (cfg.cond c) w.taken :=
    heeds_delivered hk h.heeds fun ev hev => h.events ev (List.mem_filter.1 hev).1
  -- an event turns no cell on
  have hon := fun i j => (hheeds.cells i j).on
  obtain ⟨hwatch, hcount⟩ := h.pass hk hr hwf h.ehs rfl hheeds
    (fun i j => (or_iff_left_of_imp (hon i j)).symm)
    (fun i j _ _ hcell hold => absurd (hon i j hcell) hold) (fun _ => hon)
    (fun ev hev => h.events ev (List.mem_filter.1 hev).1) hreach hpass
  refine ⟨hwatch, ?_⟩
  rcases hcount with ⟨⟨i, j, hcell, hold⟩, -⟩ | ⟨-, hcount⟩
  · exact absurd (hon i j hcell) hold
  · exact hcount

theorem Watched.take_reset {op : Op} (hop : op.IsReset) (taken : Taken) :
    take cfg c op taken = match op.resets cfg with
      | none => taken
      | some (cs, _) => if cs c then [] else taken := by
  cases op with
  | feed | eventWorker | enableRule | enableEHS | participants => exact hop.elim
  | resetRule name =>
    simp only [take, Op.resets]
    cases Engine.findRuleByName cfg name <;> simp
  | resetRules => simp [take, Op.resets]
  | resetCond name =>
    simp only [take, Op.resets]
    cases Engine.findCondByName cfg name <;> simp
  | resetConds | reset => simp [take, Op.resets]

/-- A reset of both leaves no alarm and no history, one of neither leaves both. -/
theorem Watching.clear (hk : (cfg.cond c).Bursty) (h : Watching cfg c r w) {cs : C → Bool}
    {rs : R → Bool} (hboth : cs c = rs r) (hreach : Reachable cfg (clear cfg cs rs w.engine)) :
    Watching cfg c r ⟨clear cfg cs rs w.engine, if cs c then [] else w.taken⟩ := by
  have hsound := (h.reachable.twin.conds c).sound
  have hcond : (Engine.clear cfg cs rs w.engine).conds c =
      if cs c then (w.engine.conds c).reset else w.engine.conds c := rfl
  have hrule : (Engine.clear cfg cs rs w.engine).rules r =
      if cs c then (w.engine.rules r).reset (cfg.rule r) else w.engine.rules r := by
    rw [hboth]
    rfl
  cases hcs : cs c with
  | false =>
    rw [hcs] at hcond hrule
    refine ⟨hreach, h.ehs, ?_, ?_, h.events, ?_⟩
    · simp only [hrule]
      exact h.enabled
    · simp only [hcond]
      exact h.heeds
    · simp only [hcond, hrule]
      exact h.alarms
  | true =>
    rw [hcs] at hcond hrule
    refine ⟨hreach, h.ehs, ?_, ?_, h.events, fun d => ?_⟩
    · simp only [hrule]
      exact h.enabled
    · simp only [hcond]
      exact Hitmap.heeds_reset _ hsound.built
    · simp only [hrule]
      refine iff_of_false (by simp [Rule.reset]) ?_
      rintro ⟨i, j, -, hburst⟩
      exact Burst.not_has_nil hk.sane.1.count hburst

/-- One call of a run. -/
theorem Watching.step (hk : (cfg.cond c).Bursty) (hr : (cfg.rule r).Solo c)
    (h : Watching cfg c r w) {op : Op} (hok : w.Ok cfg c r op)
    (hs : Watched.step cfg c op w = some w') :
    Watching cfg c r w' ∧ Reports cfg c r op w w' := by
  unfold Watched.step at hs
  rcases hexec : op.exec cfg w.engine with ⟨⟨⟩, e'⟩ | ⟨err, e'⟩ <;> rw [hexec] at hs
  swap
  · cases hs
  obtain rfl := Option.some_inj.1 hs
  have hfinal : final (op.exec cfg) w.engine = e' := final_ok hexec
  have hreach : Reachable cfg e' := hfinal ▸ h.reachable.step op
  -- a call that is not a feed reports nothing
  have hquiet : (∀ x, (cfg.cond c).BurstOf x (Watched.take cfg c op w.taken) →
      (cfg.cond c).BurstOf x w.taken) → alarmsOf cfg r e' = alarmsOf cfg r w.engine →
      Reports cfg c r op w ⟨e', Watched.take cfg c op w.taken⟩ := fun hb hcount => .inr ⟨hb, hcount⟩
  have hreset : op.IsReset → (∀ cs rs, op.resets cfg = some (cs, rs) → cs c = rs r) →
      Watching cfg c r ⟨e', Watched.take cfg c op w.taken⟩ ∧
        Reports cfg c r op w ⟨e', Watched.take cfg c op w.taken⟩ := by
    intro hop hboth
    rw [final_reset_exec cfg w.engine hop] at hfinal
    rw [Watched.take_reset hop] at hquiet ⊢
    rcases ho : op.resets cfg with _ | ⟨cs, rs⟩ <;> rw [ho] at hfinal hquiet <;> subst hfinal
    · exact ⟨h, hquiet (fun _ => id) rfl⟩
    · refine ⟨h.clear hk (hboth cs rs ho) hreach, hquiet (fun x hx => ?_) rfl⟩
      simp only at hx
      split_ifs at hx
      · exact absurd hx (Burst.not_has_nil hk.sane.1.count)
      · exact hx
  cases op with
  | feed msg now => exact h.feed hk hr hok hexec
  | eventWorker now tod =>
    obtain ⟨hwatch, hcount⟩ := h.eventWorker hk hr hexec
    exact ⟨hwatch, hquiet (fun _ => id) hcount⟩
  | enableRule name flag =>
    simp only [Op.exec, enableRule, bind_apply] at hexec
    rcases hfind : findRuleByName cfg name with err | r' <;> rw [hfind] at hexec <;> cases hexec
    have hrule : r' = r → flag = true := by
      rintro rfl
      refine hok.resolve_right fun hne => hne ?_
      unfold findRuleByName at hfind
      split at hfind <;> cases hfind
      rename_i hsome
      have hname := List.find?_some hsome
      exact (of_decide_eq_true hname).symm
    refine ⟨⟨hreach, h.ehs, ?_, h.heeds, h.events, ?_⟩, hquiet (fun _ => id) rfl⟩
    · show (Function.update w.engine.rules r' _ r).enabled = true
      rcases eq_or_ne r r' with heq | hne
      · subst heq
        rw [Function.update_self]
        exact hrule rfl
      · rw [Function.update_of_ne hne]
        exact h.enabled
    · have halarms : (Function.update w.engine.rules r'
          { w.engine.rules r' with enabled := flag } r).alarms = (w.engine.rules r).alarms :=
        update_frame (f := Rule.alarms) (by rfl) r
      simp only [halarms]
      exact h.alarms
  | enableEHS flag =>
    cases hexec
    exact ⟨⟨hreach, hok, h.enabled, h.heeds, h.events, h.alarms⟩, hquiet (fun _ => id) rfl⟩
  | participants op =>
    have hP : Pre fun e e' : Engine C R => ∃ participants, e' = { e with participants } := by
      refine ⟨fun e => ⟨e.participants, rfl⟩, fun h h' => ?_⟩
      obtain ⟨p, rfl⟩ := h
      obtain ⟨p', rfl⟩ := h'
      exact ⟨p', rfl⟩
    obtain ⟨p, rfl⟩ := (moves_onParticipants hP op fun p e => ⟨p, rfl⟩).of_ok hexec
    exact ⟨⟨hreach, h.ehs, h.enabled, h.heeds, h.events, h.alarms⟩, hquiet (fun _ => id) rfl⟩
  | resetRule | resetRules | resetCond | resetConds | reset => exact hreset trivial hok

theorem watching_init (hE : cfg.EHS = false) (hk : (cfg.cond c).Bursty) :
    Watching cfg c r (Watched.init cfg) := by
  refine ⟨.refl, hE, rfl, Hitmap.heeds_init _, by simp [Watched.init, Config.init], fun d => ?_⟩
  refine iff_of_false (by simp [Watched.init, Config.init, RuleConfig.init]) ?_
  rintro ⟨i, j, -, hburst⟩
  exact Burst.not_has_nil hk.sane.1.count hburst

theorem watching (hk : (cfg.cond c).Bursty) (hr : (cfg.rule r).Solo c) (hE : cfg.EHS = false)
    (h : Machine.Run (Watched.step cfg c) (Watched.Ok cfg c r) (Watched.init cfg) w) :
    Watching cfg c r w :=
  h.invariant (watching_init hE hk) fun _ _ _ hI hok hs => (hI.step hk hr hok hs).1

/-- In every state of such a run the rule has an alarm of two names if and only if there has been a
burst of messages of the names since the reset, and no other alarm. -/
theorem alarm_iff_burst (hk : (cfg.cond c).Bursty) (hr : (cfg.rule r).Solo c)
    (hE : cfg.EHS = false)
    (h : Machine.Run (Watched.step cfg c) (Watched.Ok cfg c r) (Watched.init cfg) w) :
    (∀ x, (cfg.cond c).BurstOf x w.taken ↔ ∃ i j : ℕ,
      (w.engine.conds c).hitmap.srcIdx.find? x.1 = some i ∧
      (w.engine.conds c).hitmap.tgtIdx.find? x.2 = some j ∧
      [((i : ℤ), (j : ℤ))] ∈ (w.engine.rules r).alarms.map Prod.fst) ∧
    ∀ d ∈ (w.engine.rules r).alarms.map Prod.fst, ∃ (x : String × String) (i j : ℕ),
      (w.engine.conds c).hitmap.srcIdx.find? x.1 = some i ∧
      (w.engine.conds c).hitmap.tgtIdx.find? x.2 = some j ∧ d = [((i : ℤ), (j : ℤ))] := by
  have hwatch := watching hk hr hE h
  have hw := hwatch.reachable.passed.wf.conds c
  refine ⟨fun x => ⟨fun hb => ?_, ?_⟩, fun d hd => ?_⟩
  · obtain ⟨m, hm⟩ := List.exists_mem_of_ne_nil _ (hb.ne_nil hk.sane.1.count)
    obtain ⟨p, hnamed, -⟩ := List.mem_map.1 hm
    obtain ⟨hp, rfl⟩ := Burst.mem_named.1 hnamed
    obtain ⟨i, j, hat⟩ := hwatch.heeds.exists_cellAt hp
    obtain ⟨hs, ht⟩ := Prod.mk.inj hat
    refine ⟨i, j, hs, ht, (hwatch.alarms _).2 ⟨i, j, rfl, ?_⟩⟩
    rw [hw.came_eq hat]
    exact hb
  · rintro ⟨i, j, hs, ht, hmem⟩
    obtain ⟨i', j', heq, hb⟩ := (hwatch.alarms _).1 hmem
    obtain ⟨rfl, rfl⟩ := RuleConfig.Solo.key_inj.1 heq
    rwa [hw.came_eq (Prod.ext hs ht)] at hb
  · obtain ⟨i, j, rfl, hb⟩ := (hwatch.alarms d).1 hd
    obtain ⟨x, -, -, hat⟩ := Hitmap.exists_of_burst hk hb
    obtain ⟨hs, ht⟩ := Prod.mk.inj hat
    exact ⟨x, i, j, hs, ht, rfl⟩

/-- Two messages `a` of a source in ten seconds. -/
def burstConfig : Config Unit Unit where
  lex := ⟨fun _ => none, fun _ => none⟩
  cmap := [()]
  rmap := [()]
  cond _ := { name := "a", severity := .debug, anySrc := true, e := Regex.literal "a", tc := 2,
              ts := 10, perSource := true, persistent := false }
  rule _ := .plain "r" [[.cond ()]] [] "hit" [] (Eq.refl true)
  mem_cmap := mem_unit
  cmap_nodup := unit_nodup
  mem_rmap := mem_unit
  rmap_nodup := unit_nodup
  condName_inj _ _ _ := rfl
  ruleName_inj _ _ _ := rfl

theorem burstConfig_bursty : (burstConfig.cond ()).Bursty :=
  ⟨rfl, by decide, by decide, by decide⟩

theorem burstConfig_solo : (burstConfig.rule ()).Solo () := ⟨rfl, rfl, rfl⟩

/-- The source `x` reports `a` at the second `t`. -/
def burstMsg (t : ℤ) : Msg := ⟨.error, "x", "", "a", t⟩

def burstName : String × String := ("x", Hitmap.globalT)

def burstFirst : Watched Unit Unit :=
  ⟨final (Engine.feed burstConfig (burstMsg 0) 0) burstConfig.init, [(burstName, burstMsg 0)]⟩

def burstSecond : Watched Unit Unit :=
  ⟨final (Engine.feed burstConfig (burstMsg 10) 10) burstFirst.engine,
    [(burstName, burstMsg 0), (burstName, burstMsg 10)]⟩

theorem burst_step {w : Watched Unit Unit} {t : ℤ} {taken : Taken}
    (hok : value? (Engine.feed burstConfig (burstMsg t) t) w.engine = some ())
    (ht : Watched.take burstConfig () (.feed (burstMsg t) t) w.taken = taken) :
    Watched.step burstConfig () (.feed (burstMsg t) t) w =
      some ⟨final (Engine.feed burstConfig (burstMsg t) t) w.engine, taken⟩ := by
  have hexec : (Op.feed (burstMsg t) t).exec burstConfig w.engine =
      .ok () (final (Engine.feed burstConfig (burstMsg t) t) w.engine) := ok_of_value? hok
  unfold Watched.step
  rw [hexec, ht]

theorem burst_first : Machine.Run (Watched.step burstConfig ()) (Watched.Ok burstConfig () ())
    (Watched.init burstConfig) burstFirst :=
  Machine.Run.next .refl (a := .feed (burstMsg 0) 0) (fun _ => ⟨by decide, by simp [Watched.init]⟩)
    (burst_step (w := Watched.init burstConfig) (by decide +kernel) (by decide +kernel))

theorem burst_ok : Watched.Ok burstConfig () () (.feed (burstMsg 10) 10) burstFirst :=
  fun _ => ⟨by decide, fun p hp _ => by rw [List.mem_singleton.1 hp]; decide⟩

theorem burst_second_step :
    Watched.step burstConfig () (.feed (burstMsg 10) 10) burstFirst = some burstSecond :=
  burst_step (w := burstFirst) (by decide +kernel) (by decide +kernel)

/-- The alarm of the source `x` is the one of its index. -/
theorem alarm_iff_burst_second : (burstConfig.cond ()).BurstOf burstName burstSecond.taken ↔
    ∃ i j : ℕ, (burstSecond.engine.conds ()).hitmap.srcIdx.find? "x" = some i ∧
      (burstSecond.engine.conds ()).hitmap.tgtIdx.find? Hitmap.globalT = some j ∧
      [((i : ℤ), (j : ℤ))] ∈ (burstSecond.engine.rules ()).alarms.map Prod.fst :=
  (alarm_iff_burst burstConfig_bursty burstConfig_solo rfl
    (burst_first.next burst_ok burst_second_step)).1 burstName

/-- In such a run a call reports an alarm of the rule if and only if it feeds a message that makes a
burst of its names. -/
theorem alarms_step (hk : (cfg.cond c).Bursty) (hr : (cfg.rule r).Solo c) (hE : cfg.EHS = false)
    (h : Machine.Run (Watched.step cfg c) (Watched.Ok cfg c r) (Watched.init cfg) w) {op : Op}
    (hok : w.Ok cfg c r op) (hs : Watched.step cfg c op w = some w') :
    (∃ msg now, op = .feed msg now ∧ (cfg.cond c).BurstOf ((cfg.cond c).names msg) w'.taken ∧
        ¬(cfg.cond c).BurstOf ((cfg.cond c).names msg) w.taken) ∧
      w'.engine.alarmsOf cfg r = w.engine.alarmsOf cfg r + 1 ∨
    (∀ x, (cfg.cond c).BurstOf x w'.taken → (cfg.cond c).BurstOf x w.taken) ∧
      w'.engine.alarmsOf cfg r = w.engine.alarmsOf cfg r :=
  ((watching hk hr hE h).step hk hr hok hs).2

theorem alarms_step_second : burstSecond.engine.alarmsOf burstConfig () = 1 ∧
    (burstConfig.cond ()).BurstOf burstName burstSecond.taken := by
  have hcount : burstSecond.engine.alarmsOf burstConfig () = 1 := by decide +kernel
  have hfirst : burstFirst.engine.alarmsOf burstConfig () = 0 := by decide +kernel
  refine ⟨hcount, ?_⟩
  rcases alarms_step burstConfig_bursty burstConfig_solo rfl burst_first burst_ok
    burst_second_step with ⟨⟨msg, now, hop, hburst, -⟩, -⟩ | ⟨-, hsame⟩
  · cases hop
    exact hburst
  · rw [hcount, hfirst] at hsame
    cases hsame

end MfExtensions
