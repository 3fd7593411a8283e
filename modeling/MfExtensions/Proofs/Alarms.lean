import Mathlib.Data.Fintype.Basic
import MfExtensions.Proofs.Feed
import MfExtensions.Proofs.Invariants

/-!
# The alarms a feed raises

A feed evaluates each of the rules it notifies once, after every condition has matched the message
and the domains are evaluated again (`evaluateRules_ok`). An evaluation records at most one key, so
after it the rule has either recorded every assignment that satisfies it or just recorded one more
of them (`feed_records`).
-/

namespace MfExtensions

open Exec Relation

variable {C R : Type} [DecidableEq C] [LinearOrder R]

namespace Engine

variable (cfg : Config C R)

/-- Without error handling a notified rule is evaluated and nothing else changes. -/
theorem evaluateRule_ok {now : ℤ} {r : R} {e e' : Engine C R} (hEHS : e.EHS = false)
    (h : evaluateRule cfg now r e = .ok () e') : ∃ fired rl,
      Rule.evaluate (cfg.rule r) (cfg.view e) now (e.rules r) = .ok fired rl ∧
      e'.rules = Function.update e.rules r rl ∧ e'.conds = e.conds ∧ e'.EHS = e.EHS ∧
      e'.participants = e.participants := by
  simp only [evaluateRule, raiseAlarm, bind_apply, onRule_apply] at h
  rcases hev : Rule.evaluate (cfg.rule r) (cfg.view e) now (e.rules r) with
    ⟨_ | _, rl⟩ | ⟨err, rl⟩ <;> rw [hev] at h
  · simp only [Bool.false_eq_true, if_false, pure_apply, EStateM.Result.ok.injEq] at h
    obtain ⟨-, rfl⟩ := h
    exact ⟨false, rl, rfl, rfl, rfl, rfl, rfl⟩
  · simp only [if_true, bind_apply, get_apply] at h
    rcases hmsg : RichMsg.message (cfg.rule r)
      (cfg.view { e with rules := Function.update e.rules r rl })
      (cfg.rule r).alarmMsg (Function.update e.rules r rl r) with err | msg <;> rw [hmsg] at h
    · simp at h
    · simp only [orThrow_ok, emit, modify_apply, act, bind_apply, get_apply, hEHS,
        Bool.false_eq_true, if_false, pure_apply, EStateM.Result.ok.injEq] at h
      obtain ⟨-, rfl⟩ := h
      exact ⟨true, rl, rfl, rfl, rfl, hEHS.symm, rfl⟩
  · simp at h

/-- Without error handling a pass evaluates each rule of a list once, in the state it starts
from. -/
theorem evaluateRules_ok {now : ℤ} : ∀ {rs : List R}, rs.Nodup → ∀ {e e' : Engine C R},
    e.EHS = false → evaluateRules cfg now rs e = .ok () e' →
    e'.conds = e.conds ∧ e'.participants = e.participants ∧ ∀ r,
      (r ∉ rs → e'.rules r = e.rules r) ∧
      (r ∈ rs → ∃ fired,
        Rule.evaluate (cfg.rule r) (cfg.view e) now (e.rules r) = .ok fired (e'.rules r))
  | [], _, e, e', _, h => by
    cases h
    exact ⟨rfl, rfl, fun r => ⟨fun _ => rfl, fun h => by simp at h⟩⟩
  | r :: rs, hnd, e, e', hEHS, h => by
    obtain ⟨hr, hnd⟩ := List.nodup_cons.1 hnd
    obtain ⟨⟨⟩, e₁, h₁, h⟩ := bind_ok.1 h
    obtain ⟨fired, rl, hev, hrules, hconds, hE, hpart⟩ := evaluateRule_ok cfg hEHS h₁
    obtain ⟨hconds', hpart', hall⟩ := evaluateRules_ok hnd (hE.trans hEHS) h
    refine ⟨hconds'.trans hconds, hpart'.trans hpart, fun r' => ⟨fun hr' => ?_, fun hr' => ?_⟩⟩
    · rw [List.mem_cons, not_or] at hr'
      rw [(hall r').1 hr'.2, hrules, Function.update_of_ne hr'.1]
    · have hview : cfg.view e₁ = cfg.view e := by
        unfold Config.view
        rw [hconds, hpart]
      rcases eq_or_ne r' r with rfl | hne
      · refine ⟨fired, ?_⟩
        rw [(hall r').1 hr, hrules, Function.update_self]
        exact hev
      · have := (hall r').2 ((List.mem_cons.1 hr').resolve_left hne)
        rwa [hview, hrules, Function.update_of_ne hne] at this

end Engine

/-! ## What a feed records -/

/-- The expressions are built from primitive conditions and `count()`, no rule repeats its alarms,
and error handling is off. -/
structure Config.Plain (cfg : Config C R) : Prop where
  count : ∀ r, ∀ p ∈ (cfg.rule r).booleanExpr.leaves, p.2 = none ∨ ∃ t, p.2 = some (.count t)
  noRepeat : ∀ r, (cfg.rule r).repeatAlarm = false
  ehs : cfg.EHS = false

omit [LinearOrder R] in
theorem Config.Plain.stateless {cfg : Config C R} (h : cfg.Plain) (r : R) :
    (cfg.rule r).booleanExpr.Stateless := by
  intro p hp obj hobj
  rcases h.count r p hp with hn | ⟨t, ht⟩
  · simp [hn] at hobj
  · simp [ht] at hobj

/-- The states reached by feeds that return. -/
def FeedReachable (cfg : Config C R) : Engine C R → Prop :=
  ReflTransGen (fun e e' => ∃ msg now, Engine.feed cfg msg now e = .ok () e') cfg.init

theorem FeedReachable.reachable {cfg : Config C R} {e : Engine C R} (h : FeedReachable cfg e) :
    Reachable cfg e :=
  ReflTransGen.mono (fun _ _ ⟨msg, now, hf⟩ => ⟨.feed msg now, (final_ok hf).symm⟩) _ _ h

namespace Engine

variable (cfg : Config C R)

/-- A call that switches neither the error handling nor a rule and leaves the participants. -/
abbrev Unswitched (e e' : Engine C R) : Prop :=
  (e'.EHS, e'.participants, fun r => (e'.rules r).enabled) =
    (e.EHS, e.participants, fun r => (e.rules r).enabled)

omit [DecidableEq C] [LinearOrder R] in
theorem pre_unswitched : Pre (Unswitched (C := C) (R := R)) :=
  Pre.frame fun e : Engine C R => (e.EHS, e.participants, fun r => (e.rules r).enabled)

omit [DecidableEq C] in
theorem unswitched_update {e : Engine C R} {r : R} {x : Rule C}
    (h : x.enabled = (e.rules r).enabled) :
    Unswitched e { e with rules := Function.update e.rules r x } :=
  Prod.ext rfl (Prod.ext rfl (funext (update_frame h)))

theorem evaluateRule_unswitched (now : ℤ) (r : R) : Moves Unswitched (evaluateRule cfg now r) := by
  refine moves_evaluateRule cfg pre_unswitched (fun e => ?_) (fun _ => moves_modify fun _ => rfl)
    fun e => unswitched_update (e := e) rfl
  rw [final_onRule]
  exact unswitched_update (congrArg Prod.snd (Rule.evaluate_frame _ _ _ _))

theorem evaluateRules_unswitched (now : ℤ) (rs : List R) :
    Moves Unswitched (evaluateRules cfg now rs) :=
  moves_evaluateRules cfg pre_unswitched rs fun r _ => evaluateRule_unswitched cfg now r

theorem evaluateRulesDomain_unswitched (rs : List R) :
    Moves Unswitched (evaluateRulesDomain cfg rs) := by
  refine moves_evaluateRulesDomain cfg pre_unswitched rs fun r _ e => ?_
  rw [final_onRule]
  refine unswitched_update ?_
  obtain ⟨ds, hds⟩ := exists_domains cfg e.conds
  rw [final_ok (Rule.evaluateDomain_apply _ _ (hds r) _)]

theorem feed_unswitched (msg : Msg) (now : ℤ) : Moves Unswitched (feed cfg msg now) := by
  refine moves_bind pre_unswitched ?_ fun l => moves_bind pre_unswitched
    (evaluateRulesDomain_unswitched cfg _) fun _ => evaluateRules_unswitched cfg now _
  refine (matchConds_rulesKept cfg msg _ _).mono fun e e' h => ?_
  rw [Unswitched, h.1, h.2.1, h.2.2]

end Engine

/-- Feeds switch on neither the error handling nor switch off a rule. -/
theorem FeedReachable.switches {cfg : Config C R} {e : Engine C R} (h : FeedReachable cfg e) :
    e.EHS = cfg.EHS ∧ ∀ r, (e.rules r).enabled = true := by
  induction h with
  | refl => exact ⟨rfl, fun _ => rfl⟩
  | tail _ hf ih =>
    obtain ⟨msg, now, hf⟩ := hf
    have hsame := (Engine.feed_unswitched cfg msg now).of_ok hf
    simp only [Prod.mk.injEq, funext_iff] at hsame
    exact ⟨hsame.1.trans ih.1, fun r => (hsame.2.2 r).trans (ih.2 r)⟩

theorem FeedReachable.feed {cfg : Config C R} {e : Engine C R} (h : FeedReachable cfg e)
    (msg : Msg) (now : ℤ) (hok : value? (Engine.feed cfg msg now) e = some ()) :
    FeedReachable cfg (final (Engine.feed cfg msg now) e) :=
  h.tail ⟨msg, now, ok_of_value? hok⟩

namespace Engine

variable {cfg : Config C R}

omit [LinearOrder R] in
/-- Evaluating a rule once more returns `false` if and only if nothing is left to record; else it
records one key that an assignment stands for. -/
theorem evaluate_again (hp : cfg.Plain) {e : Engine C R} (he : e.WF cfg) {r : R}
    (hen : (e.rules r).enabled = true) {now : ℤ} {b : Bool} {rl : Rule C}
    (h : Rule.evaluate (cfg.rule r) (cfg.view e) now (e.rules r) = .ok b rl) :
    b = false ∧ rl = e.rules r ∧ (e.rules r).Recorded (cfg.rule r) (cfg.view e) ∧
      (∀ now', Rule.evaluate (cfg.rule r) (cfg.view e) now' (e.rules r) = .ok false (e.rules r)) ∨
    b = true ∧ ∃ key, (e.rules r).Satisfying (cfg.rule r) (cfg.view e) key ∧
      key ∉ (e.rules r).alarms.map Prod.fst ∧
      rl = (e.rules r).raise (cfg.rule r) (cfg.view e) now key := by
  have hwf := he.rules r
  cases b with
  | false =>
    obtain ⟨rfl, hagain, hrec⟩ :=
      Rule.evaluate_false (hp.stateless r) (hp.noRepeat r) hen hwf.noNull h
    exact .inl ⟨rfl, rfl, hrec, hagain⟩
  | true =>
    exact .inr ⟨rfl,
      Rule.evaluate_true (hp.stateless r) (hp.noRepeat r) hen hwf.noNull h⟩

/-- What is recorded for a rule after a feed from `e` to `e'` in which the conditions `status`
changed status. -/
structure FeedRecords (cfg : Config C R) (status : List C) (now : ℤ) (e e' : Engine C R) (r : R) :
    Prop where
  /-- Evaluating the rule once more returns `false` if and only if every assignment that satisfies
  it has its key recorded; else it records one key more. -/
  again : ∀ now' b rl, Rule.evaluate (cfg.rule r) (cfg.view e') now' (e'.rules r) = .ok b rl →
    (b = false ↔ (e'.rules r).Recorded (cfg.rule r) (cfg.view e')) ∧
    (b = true → ∃ key, (e'.rules r).Satisfying (cfg.rule r) (cfg.view e') key ∧
      key ∉ (e'.rules r).alarms.map Prod.fst ∧
      rl.alarms = (e'.rules r).alarms ++ [(key, now')])
  /-- A rule the feed notified either raised nothing, and then has recorded every assignment, or
  recorded one new key. -/
  notified : r ∈ cfg.mergeNotifyList .status [] status →
    (e'.rules r).alarms = (e.rules r).alarms ∧
      (e'.rules r).Recorded (cfg.rule r) (cfg.view e') ∧
      (∀ now', Rule.evaluate (cfg.rule r) (cfg.view e') now' (e'.rules r) =
        .ok false (e'.rules r)) ∨
    ∃ key, (e'.rules r).Satisfying (cfg.rule r) (cfg.view e') key ∧
      key ∉ (e.rules r).alarms.map Prod.fst ∧
      (e'.rules r).alarms = (e.rules r).alarms ++ [(key, now)]
  unnotified : r ∉ cfg.mergeNotifyList .status [] status →
    (e'.rules r).alarms = (e.rules r).alarms

/-- A feed that returns evaluates the rules notified, after what leaves the alarms alone. -/
theorem feed_split (hp : cfg.Plain) {e e' : Engine C R} (he : FeedReachable cfg e) {msg : Msg}
    {now : ℤ} (hfeed : feed cfg msg now e = .ok () e') :
    ∃ l e₁ e₂, matchConds cfg msg cfg.cmap {} e = .ok l e₁ ∧
      evaluateRules cfg now (notifyStatus cfg l) e₂ = .ok () e' ∧ e₂.WF cfg ∧ e₂.EHS = false ∧
      ∀ r, (e₂.rules r).alarms = (e.rules r).alarms ∧ (e₂.rules r).enabled = true := by
  obtain ⟨l, e₁, h₁, hf⟩ := bind_ok.1 hfeed
  obtain ⟨⟨⟩, e₂, h₂, h₃⟩ := bind_ok.1 hf
  obtain ⟨hrules₁, hEHS₁, -⟩ := (matchConds_rulesKept cfg msg _ _).of_ok h₁
  obtain ⟨ds, hds⟩ := exists_domains cfg e₁.conds
  have hmatch := (matchConds_steps cfg anyReset msg _ _).of_ok h₁
  have hdomain := (evaluateRulesDomain_steps cfg anyReset l).of_ok h₂
  have he₂ : setDomains (notifyDomain cfg l) ds e₁ = e₂ := by
    rw [evaluateRulesDomain_ok cfg _ e₁ hds] at h₂
    cases h₂
    rfl
  refine ⟨l, e₁, e₂, h₁, h₃, he.reachable.passed.wf.steps anyReset (hmatch.trans hdomain), ?_,
    fun r => ?_⟩
  · rw [← he₂]
    exact hEHS₁.trans (he.switches.1.trans hp.ehs)
  · rw [← he.switches.2 r, ← he₂, ← hrules₁]
    simp only [setDomains]
    split_ifs <;> exact ⟨rfl, rfl⟩

/-- A feed that returns loses no alarm of a rule it evaluates without raising one, and records one
key of a rule it evaluates and raises. -/
theorem feed_records (hp : cfg.Plain) {e e' : Engine C R} (he : FeedReachable cfg e) {msg : Msg}
    {now : ℤ} (hfeed : feed cfg msg now e = .ok () e') :
    ∃ l e₁, matchConds cfg msg cfg.cmap {} e = .ok l e₁ ∧
      ∀ r, FeedRecords cfg l.status now e e' r := by
  have he' : FeedReachable cfg e' := he.tail ⟨msg, now, hfeed⟩
  obtain ⟨l, e₁, e₂, h₁, h₃, hwf₂, hEHS, hkept⟩ := feed_split hp he hfeed
  have hnd : (notifyStatus cfg l).Nodup :=
    (cfg.mergeNotifyList_sorted .status _ List.Pairwise.nil).imp ne_of_lt
  obtain ⟨hconds, hpart, hall⟩ := evaluateRules_ok cfg hnd hEHS h₃
  have hview : cfg.view e' = cfg.view e₂ := by
    unfold Config.view
    rw [hconds, hpart]
  refine ⟨l, e₁, h₁, fun r => ?_⟩
  obtain ⟨halarms, hen₂⟩ := hkept r
  refine ⟨fun now' b rl h => ?_, fun hr => ?_, fun hr => ?_⟩
  · rcases evaluate_again hp he'.reachable.passed.wf (he'.switches.2 r) h with
      ⟨rfl, -, hrec, -⟩ | ⟨rfl, key, hsat, hnew, rfl⟩
    · exact ⟨⟨fun _ => hrec, fun _ => rfl⟩, by simp⟩
    · exact ⟨⟨by simp, fun hrec => absurd (hrec key hsat) hnew⟩, fun _ => ⟨key, hsat, hnew, rfl⟩⟩
  · obtain ⟨fired, hev⟩ := (hall r).2 hr
    rw [hview, ← halarms]
    rcases evaluate_again hp hwf₂ hen₂ hev with
      ⟨rfl, hrl, hrec, hagain⟩ | ⟨rfl, key, hsat, hnew, hrl⟩
    · rw [hrl]
      exact .inl ⟨rfl, hrec, hagain⟩
    · rw [hrl]
      exact .inr ⟨key, hsat, hnew, rfl⟩
  · rw [(hall r).1 hr, halarms]

end Engine

/-! ## Alarms left out -/

/-- The conditions `a`, which distinguishes sources, `b`, and `c`, which needs two messages, and
the rules `a && b` and `c || a`. -/
def lossyConfig : Config (Fin 3) Bool where
  lex := ⟨fun _ => none, fun _ => none⟩
  cmap := [0, 1, 2]
  rmap := [false, true]
  cond
    | 0 => { name := "a", severity := .debug, anySrc := true, e := Regex.literal "a",
             perSource := true }
    | 1 => { name := "b", severity := .debug, anySrc := true, e := Regex.literal "b" }
    | 2 => { name := "c", severity := .debug, anySrc := true, e := Regex.literal "c", tc := 2 }
  rule
    | false => .plain "r" [[.cond 0, .cond 1]] [] "hit" [] (Eq.refl true)
    | true => .plain "s" [[.cond 2], [.cond 0]] [] "hit" [] (Eq.refl true)
  mem_cmap := by decide
  cmap_nodup := by decide
  mem_rmap := mem_bools
  rmap_nodup := bools_nodup
  condName_inj := by decide
  ruleName_inj := by decide

def lossyMsg (app text : String) : Msg := ⟨.error, app, "", text, 0⟩

theorem lossyConfig_plain : lossyConfig.Plain := by
  have h : ∀ r, ∀ p ∈ (lossyConfig.rule r).booleanExpr.leaves, p.2.isNone = true := by decide
  exact ⟨fun r p hp => .inl (Option.isNone_iff_eq_none.1 (h r p hp)), by decide, rfl⟩

/-- The sources `x` and `y` report `a`, then come a message `b` and a message `c`. -/
def lossyState : Engine (Fin 3) Bool :=
  final (Engine.feed lossyConfig (lossyMsg "z" "c") 0)
    (final (Engine.feed lossyConfig (lossyMsg "z" "b") 0)
      (final (Engine.feed lossyConfig (lossyMsg "y" "a") 0)
        (final (Engine.feed lossyConfig (lossyMsg "x" "a") 0) lossyConfig.init)))

theorem lossyState_feedReachable : FeedReachable lossyConfig lossyState := by
  have h₀ : FeedReachable lossyConfig lossyConfig.init := .refl
  have h₁ := h₀.feed (lossyMsg "x" "a") 0 (by decide +kernel)
  have h₂ := h₁.feed (lossyMsg "y" "a") 0 (by decide +kernel)
  have h₃ := h₂.feed (lossyMsg "z" "b") 0 (by decide +kernel)
  exact h₃.feed (lossyMsg "z" "c") 0 (by decide +kernel)

/-- The message `b` makes two assignments of the first rule true at once, and the first message `c`
one of the second without a change of status: both rules still have an alarm to raise. -/
theorem feed_leaves_alarms : lossyConfig.Plain ∧ FeedReachable lossyConfig lossyState ∧
    ∀ r, ∃ rl, Rule.evaluate (lossyConfig.rule r) (lossyConfig.view lossyState) 0
      (lossyState.rules r) = .ok true rl := by
  refine ⟨lossyConfig_plain, lossyState_feedReachable, fun r => ⟨_, ok_of_value? ?_⟩⟩
  revert r
  decide +kernel

/-- The sources `x` and `y` have reported `a`. -/
def lossyPair : Engine (Fin 3) Bool :=
  final (Engine.feed lossyConfig (lossyMsg "y" "a") 0)
    (final (Engine.feed lossyConfig (lossyMsg "x" "a") 0) lossyConfig.init)

/-- The message `b`, which makes the two assignments of the first rule true. -/
theorem feed_records_second :
    (lossyPair.rules false).alarms = [] ∧ ∃ l e₁,
      Engine.matchConds lossyConfig (lossyMsg "z" "b") lossyConfig.cmap {} lossyPair = .ok l e₁ ∧
      ∀ r, Engine.FeedRecords lossyConfig l.status 0 lossyPair
        (final (Engine.feed lossyConfig (lossyMsg "z" "b") 0) lossyPair) r := by
  have h₀ : FeedReachable lossyConfig lossyConfig.init := .refl
  have h₁ := h₀.feed (lossyMsg "x" "a") 0 (by decide +kernel)
  have h₂ : FeedReachable lossyConfig lossyPair :=
    h₁.feed (lossyMsg "y" "a") 0 (by decide +kernel)
  exact ⟨by decide +kernel,
    Engine.feed_records lossyConfig_plain h₂ (ok_of_value? (by decide +kernel))⟩

end MfExtensions
