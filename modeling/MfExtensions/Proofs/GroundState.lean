import MfExtensions.Proofs.Alarms
import MfExtensions.Proofs.Primitive
import MfExtensions.Proofs.TwinEngine

/-!
# The ground state

A reset empties the index maps and the cells and forgets the alarms, but not the domains of a rule,
the tables of its `is_syncd` functions, the last message of a condition, the groups of a cell, nor
the events on their way. Where none of these is left over (`Clean`) the engine goes on as a newly
constructed one (`reset_ground`); the temporaries of a condition and the extents of its array, which
a reset does not touch either, are never read.
-/

namespace MfExtensions

open Exec

variable {C R : Type} [DecidableEq C] [LinearOrder R]

/-- A newly constructed engine with the switches and the participants of `e`. -/
def Config.initAs (cfg : Config C R) (e : Engine C R) : Engine C R :=
  { cfg.init with
    rules := fun r => { (cfg.rule r).init with enabled := (e.rules r).enabled }
    EHS := e.EHS
    participants := e.participants }

namespace Engine

variable (cfg : Config C R) (e : Engine C R)

/-- Nothing is left over that a reset forgets and a rule reads. -/
structure Clean : Prop where
  domains : ∀ r, (cfg.rule r).domainExpr ≠ [] → (e.rules r).domains = []
  sync : ∀ r, (e.rules r).sync = fun _ => {}
  last : ∀ c, cfg.Syncs c →
    (e.conds c).lastSrc = "" ∧ (e.conds c).lastTgt = "" ∧ (e.conds c).lastWhat = {}
  what : ∀ c, cfg.NamesGroup c → ∀ s t, ((e.conds c).hitmap.cells s t).what = {}
  events : ∀ ev ∈ e.events, ev.ts = 0 → (cfg.cond ev.cond).eventStatus = false

variable {cfg e}

omit [LinearOrder R] in
theorem Clean.rules (h : Clean cfg e) (he : e.WF cfg) (r : R) : (e.rules r).reset (cfg.rule r) =
    { (cfg.rule r).init with enabled := (e.rules r).enabled } := by
  have hdomains : (e.rules r).domains = (cfg.rule r).init.domains := by
    by_cases hk : (cfg.rule r).domainExpr = []
    · simp [(he.rules r).any hk, RuleConfig.init, hk]
    · simp [h.domains r hk, RuleConfig.init, hk]
  simp only [Rule.reset, BooleanExpr.reset_eq, h.sync r, hdomains, RuleConfig.init]

omit [LinearOrder R] in
/-- A condition that is reset is the twin of a new one. -/
theorem Clean.conds (h : Clean cfg e) {c : C} (hs : (e.conds c).Sound (cfg.cond c)) :
    Condition.Twin (cfg.cond c) (cfg.Syncs c) (cfg.NamesGroup c) {} (e.conds c).reset := by
  refine ⟨Condition.sound_init _, hs.reset, ⟨⟨rfl, rfl, fun s t => ?_, fun s t => ?_⟩,
    fun hg s t => ?_, fun s t => ?_⟩, .inr ⟨fun _ => rfl, fun _ _ _ => rfl⟩,
    fun hc => (h.last c hc).1, fun hc => (h.last c hc).2.1, fun hc => (h.last c hc).2.2⟩ <;>
    rw [hs.reset_cells]
  · rfl
  · rfl
  · exact h.what c hg s t
  · rfl

/-- A clean engine that is reset is the twin of a new one: the events on their way come to cells
whose time is 0. -/
theorem Clean.twin (h : Clean cfg e) (he : Reachable cfg e) :
    Twin cfg [] e.log (cfg.initAs e) (final (Op.exec cfg .reset) e) := by
  have hself := he.twin
  have hfinal : final (Op.exec cfg .reset) e = clear cfg (fun _ => true) (fun _ => true) e :=
    final_reset_exec cfg e trivial
  rw [hfinal]
  refine ⟨fun c => ?_, ?_, rfl, rfl, ⟨.nil, by simp [Config.initAs, Config.init]⟩,
    (hself.clear _ _).queued, fun _ hev => ?_, fun ev hev => .inr ?_, [], rfl,
    (List.append_nil _).symm⟩
  · exact h.conds (hself.conds c).sound
  · exact funext fun r => h.rules he.passed.wf r
  · simp [Config.initAs, Config.init] at hev
  · have hcell : ((clear cfg (fun _ => true) (fun _ => true) e).conds ev.cond).hitmap.cells
        ev.sIdx ev.tIdx = ((e.conds ev.cond).hitmap.cells ev.sIdx ev.tIdx).reset :=
      (hself.conds ev.cond).sound.reset_cells _ _
    rw [hcell]
    exact ⟨h.events ev hev, fun hts => ⟨h.events ev hev hts, rfl⟩⟩

/-- A clean engine that is reset calls its owner, whatever calls follow, as a newly constructed one
does. -/
theorem reset_ground (he : Reachable cfg e) (h : Clean cfg e) (ops : List Op) :
    (after cfg ops (final (Op.exec cfg .reset) e)).log =
      e.log ++ (after cfg ops (cfg.initAs e)).log := by
  obtain ⟨out, hlog, hlog'⟩ := ((h.twin he).after ops).log
  rw [hlog', hlog, List.nil_append]

end Engine

/-! ## Histories of messages -/

/-- A message comes, or time passes. -/
def Op.IsHistory : Op → Prop
  | .feed _ _ | .eventWorker _ _ => True
  | _ => False

/-- After a history of messages an engine constructed anew is the one as it was constructed. -/
theorem initAs_history {cfg : Config C R} {e : Engine C R}
    (h : Run cfg (fun op _ => op.IsHistory) e) : cfg.initAs e = cfg.init := by
  have hsame : Engine.Unswitched cfg.init e := by
    induction h with
    | refl => rfl
    | tail _ hop ih =>
      obtain ⟨op, hop, rfl⟩ := hop
      refine Eq.trans ?_ ih
      cases op with
      | feed msg now => exact Engine.feed_unswitched cfg msg now _
      | eventWorker now tod => exact Engine.evaluateRules_unswitched cfg tod _ _
      | enableRule | enableEHS | participants => exact hop.elim
      | resetRule | resetRules | resetCond | resetConds | reset => exact hop.elim
  simp only [Prod.mk.injEq, funext_iff] at hsame
  obtain ⟨hEHS, hpart, hen⟩ := hsame
  simp only [Config.initAs, hEHS, hpart, hen]
  rfl

/-! ## A domain left behind -/

/-- The conditions `a`, which distinguishes sources and targets, and `b`, and the rule
`b || a WHERE a.$s = 'x' AND a.$t = 'a'`. -/
def leftoverConfig : Config Bool Unit where
  lex := ⟨fun _ => none, fun _ => none⟩
  cmap := [false, true]
  rmap := [()]
  cond
    | false => { name := "a", severity := .debug, anySrc := true, e := Regex.literal "a",
                 perSource := true, perTarget := true, targetGroup := 0 }
    | true => { name := "b", severity := .debug, anySrc := true, e := Regex.literal "b" }
  rule _ := .plain "r" [[.cond true], [.cond false]]
    [[.chain [(false, .source)] "x", .chain [(false, .target)] "a"]] "hit" [] (Eq.refl true)
  mem_cmap := mem_bools
  cmap_nodup := bools_nodup
  mem_rmap := mem_unit
  rmap_nodup := unit_nodup
  condName_inj := by decide
  ruleName_inj _ _ _ := rfl

/-- The source `x` has reported `a`. -/
def leftoverState : Engine Bool Unit :=
  final (Op.exec leftoverConfig (.feed (lossyMsg "x" "a") 0)) leftoverConfig.init

theorem leftoverState_run : Run leftoverConfig (fun op _ => op.IsHistory) leftoverState :=
  Run.step .refl (.feed (lossyMsg "x" "a") 0) trivial

/-- After a reset the message `b` raises an alarm, as the rule still has the domain of `x`; in a new
engine, where no domain satisfies the clause yet, it raises none. -/
theorem reset_keeps_domain : Run leftoverConfig (fun op _ => op.IsHistory) leftoverState ∧
    (Engine.after leftoverConfig [.feed (lossyMsg "y" "b") 0]
      (final (Op.exec leftoverConfig .reset) leftoverState)).log =
        leftoverState.log ++ [.condMatch "b", .alarm "r" "hit"] ∧
    (Engine.after leftoverConfig [.feed (lossyMsg "y" "b") 0] leftoverConfig.init).log =
      [.condMatch "b"] :=
  ⟨leftoverState_run, by decide +kernel, by decide +kernel⟩

/-- Two messages after a reset raise the alarm of the rule `a && b` as in a new engine. -/
theorem reset_ground_first :
    (Engine.after lossyConfig [.feed (lossyMsg "y" "a") 0, .feed (lossyMsg "x" "b") 0]
      (final (Op.exec lossyConfig .reset) lossyFirst)).log =
        lossyFirst.log ++ [.condMatch "a", .condMatch "b", .alarm "r" "hit"] ∧
    (Engine.after lossyConfig [.feed (lossyMsg "y" "a") 0, .feed (lossyMsg "x" "b") 0]
      (final (Op.exec lossyConfig .reset) lossyFirst)).log =
        lossyFirst.log ++ (Engine.after lossyConfig
          [.feed (lossyMsg "y" "a") 0, .feed (lossyMsg "x" "b") 0]
          (lossyConfig.initAs lossyFirst)).log := by
  have hnames : ∀ r, ∀ m ∈ (lossyConfig.rule r).alarmMsg :: (lossyConfig.rule r).actions,
      m.symbols = [] := by decide
  have hclean : Engine.Clean lossyConfig lossyFirst := by
    refine ⟨by decide +kernel, fun r => ?_, fun c ⟨r, obj, h⟩ => ?_,
      fun c ⟨r, m, hm, s, hs, _⟩ => ?_, by decide +kernel⟩
    · cases r <;> rfl
    · exact absurd rfl (lossyConfig_plain.stateless r _ h obj)
    · simp [hnames r m hm] at hs
  exact ⟨by decide +kernel,
    Engine.reset_ground (.single ⟨.feed (lossyMsg "x" "a") 0, rfl⟩) hclean _⟩

end MfExtensions
