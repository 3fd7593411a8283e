import Mathlib.Logic.Relation
import MfExtensions.Proofs.Notify

/-!
# The steps of the engine

Every call of the engine, whether it returns or throws, is a sequence of steps (`exec_steps`): a
message matched against one condition, an event pushed or delivered, the domains of a rule
evaluated, a rule evaluated, a rule or the error handling switched, the participants changed,
conditions and rules reset. What every step keeps holds in every state
the engine passes through (`Passed.invariant`), and in those of a run whose resets all satisfy
a condition it is enough to keep it under such resets (`Run.steps`).
-/

namespace MfExtensions

open Exec Relation

variable {C R : Type} [DecidableEq C] [LinearOrder R]

namespace Engine

/-- A condition on a reset: the conditions and the rules reset, and the state before. -/
abbrev ResetPred (C R : Type) := (C → Bool) → (R → Bool) → Engine C R → Prop

def anyReset : ResetPred C R := fun _ _ _ => True

section Steps

variable (cfg : Config C R)

/-- Reset the conditions `cs` and the rules `rs`. -/
def clear (cs : C → Bool) (rs : R → Bool) (e : Engine C R) : Engine C R :=
  { e with
    conds := fun c => if cs c then (e.conds c).reset else e.conds c
    rules := fun r => if rs r then (e.rules r).reset (cfg.rule r) else e.rules r }

/-- One step of the engine. Domains are evaluated only of a rule with a `WHERE` clause, and the
resets satisfy `ok`. -/
inductive Step (ok : ResetPred C R) (e : Engine C R) : Engine C R → Prop
  | matched (c : C) (msg : Msg) : Step ok e { e with
      conds := Function.update e.conds c
        (final (Condition.matchMsg cfg.lex (cfg.cond c) msg) (e.conds c)) }
  | events (events : List (TimingEvent C)) : Step ok e { e with events }
  | emitted (log : List Output) : Step ok e { e with log }
  | domain (r : R) (h : (cfg.rule r).domainExpr.args ≠ []) : Step ok e { e with
      rules := Function.update e.rules r
        (final (Rule.evaluateDomain (cfg.rule r) (cfg.view e)) (e.rules r)) }
  | evaluated (r : R) (now : ℤ) : Step ok e { e with
      rules := Function.update e.rules r
        (final (Rule.evaluate (cfg.rule r) (cfg.view e) now) (e.rules r)) }
  | delivered (ev : TimingEvent C) : Step ok e { e with
      conds := Function.update e.conds ev.cond
        ((e.conds ev.cond).event (cfg.cond ev.cond) ev.sIdx ev.tIdx ev.ts).1 }
  | switched (r : R) (flag : Bool) : Step ok e { e with
      rules := Function.update e.rules r { e.rules r with enabled := flag } }
  | supervised (flag : Bool) : Step ok e { e with EHS := flag }
  | participants (participants : Participants) : Step ok e { e with participants }
  | cleared (cs : C → Bool) (rs : R → Bool) (h : ok cs rs e) : Step ok e (clear cfg cs rs e)

abbrev Steps (ok : ResetPred C R) : Engine C R → Engine C R → Prop := ReflTransGen (Step cfg ok)

theorem pre_steps (ok : ResetPred C R) : Pre (Steps cfg ok) :=
  ⟨fun _ => .refl, ReflTransGen.trans⟩

theorem onRule_apply {α : Type} (r : R) (x : View C → EStateM Err (Rule C) α)
    (e : Engine C R) : onRule cfg r x e = match x (cfg.view e) (e.rules r) with
      | .ok a s => .ok a { e with rules := Function.update e.rules r s }
      | .error err s => .error err { e with rules := Function.update e.rules r s } := by
  unfold onRule
  rw [bind_apply, get_apply]
  simp only [zoom]
  cases x (cfg.view e) (e.rules r) <;> rfl

theorem final_onRule {α : Type} (r : R) (x : View C → EStateM Err (Rule C) α)
    (e : Engine C R) : final (onRule cfg r x) e = { e with
      rules := Function.update e.rules r (final (x (cfg.view e)) (e.rules r)) } := by
  unfold final
  rw [onRule_apply]
  cases x (cfg.view e) (e.rules r) <;> rfl

end Steps

/-! ## The loops of a feed -/

section Feed

variable (cfg : Config C R)

omit [LinearOrder R] in
theorem moves_matchConds {P : Engine C R → Engine C R → Prop} (hP : Pre P) {msg : Msg}
    (hmatch : ∀ c, Moves P (matchCond cfg c msg)) (hemit : ∀ o, Moves P (emit (C := C) o)) :
    ∀ (cs : List C) (l : Changed C), Moves P (matchConds cfg msg cs l)
  | [], _ => moves_pure hP _
  | c :: cs, l => by
    refine moves_bind hP (hmatch c) fun change => ?_
    cases change with
    | none => exact moves_matchConds hP hmatch hemit cs l
    | some change =>
      exact moves_bind hP (hemit _) fun _ => moves_matchConds hP hmatch hemit cs _

theorem moves_evaluateRulesDomain {P : Engine C R → Engine C R → Prop} (hP : Pre P) :
    ∀ rs : List R,
      (∀ r ∈ rs, Moves P (onRule cfg r fun V => Rule.evaluateDomain (cfg.rule r) V)) →
      Moves P (evaluateRulesDomain cfg rs)
  | [], _ => moves_pure hP _
  | r :: rs, h => moves_bind hP (h r List.mem_cons_self) fun _ =>
      moves_evaluateRulesDomain hP rs fun r hr => h r (List.mem_cons_of_mem _ hr)

/-- Reporting an alarm moves on from where the evaluation of the rule ends. -/
theorem final_raiseAlarm {P : Engine C R → Engine C R → Prop} (hP : Pre P) (now : ℤ) (r : R)
    (hemit : ∀ o, Moves P (emit (C := C) o)) (e : Engine C R) :
    P (final (onRule cfg r fun V => Rule.evaluate (cfg.rule r) V now) e)
      (final (raiseAlarm cfg now r) e) := by
  refine final_bind_of_moves hP (fun fired => ?_) e
  cases fired with
  | false => exact moves_pure hP _
  | true =>
    refine moves_get_bind fun e => ?_
    refine moves_bind hP (moves_orThrow hP _) (fun msg => ?_) e
    refine moves_bind hP (hemit _) fun _ => moves_get_bind fun e => ?_
    split_ifs
    · exact moves_bind hP (moves_orThrow hP _) (fun n => moves_pure hP _) e
    · exact hP.refl e

theorem moves_raiseAlarm {P : Engine C R → Engine C R → Prop} (hP : Pre P) {now : ℤ} {r : R}
    (heval : Moves P (onRule cfg r fun V => Rule.evaluate (cfg.rule r) V now))
    (hemit : ∀ o, Moves P (emit (C := C) o)) : Moves P (raiseAlarm cfg now r) :=
  fun e => hP.trans (heval e) (final_raiseAlarm cfg hP now r hemit e)

/-- So does resetting the rule. -/
theorem final_evaluateRule {P : Engine C R → Engine C R → Prop} (hP : Pre P) (now : ℤ) (r : R)
    (hemit : ∀ o, Moves P (emit (C := C) o)) (hreset : Moves P (resetRuleOf cfg r))
    (e : Engine C R) :
    P (final (onRule cfg r fun V => Rule.evaluate (cfg.rule r) V now) e)
      (final (evaluateRule cfg now r) e) := by
  refine hP.trans (final_raiseAlarm cfg hP now r hemit e)
    (final_bind_of_moves hP (fun reset => ?_) e)
  cases reset with
  | false => exact moves_pure hP _
  | true => exact moves_bind hP hreset fun _ => hemit _

theorem moves_evaluateRule {P : Engine C R → Engine C R → Prop} (hP : Pre P) {now : ℤ} {r : R}
    (heval : Moves P (onRule cfg r fun V => Rule.evaluate (cfg.rule r) V now))
    (hemit : ∀ o, Moves P (emit (C := C) o)) (hreset : Moves P (resetRuleOf cfg r)) :
    Moves P (evaluateRule cfg now r) :=
  fun e => hP.trans (heval e) (final_evaluateRule cfg hP now r hemit hreset e)

theorem moves_evaluateRules {P : Engine C R → Engine C R → Prop} (hP : Pre P) {now : ℤ} :
    ∀ rs : List R, (∀ r ∈ rs, Moves P (evaluateRule cfg now r)) →
      Moves P (evaluateRules cfg now rs)
  | [], _ => moves_pure hP _
  | _ :: rs, h => moves_bind hP (h _ List.mem_cons_self) fun _ =>
      moves_evaluateRules hP rs fun r hr => h r (List.mem_cons_of_mem _ hr)

theorem moves_enableRule {P : Engine C R → Engine C R → Prop} (hP : Pre P) (name : String)
    {flag : Bool} (h : ∀ r e, P e { e with
      rules := Function.update e.rules r { e.rules r with enabled := flag } }) :
    Moves P (enableRule cfg name flag) :=
  moves_bind hP (moves_orThrow hP _) fun r => moves_modify (h r)

omit [DecidableEq C] [LinearOrder R] in
theorem moves_onParticipants {P : Engine C R → Engine C R → Prop} (hP : Pre P)
    (op : ParticipantsOp) (h : ∀ participants e, P e { e with participants }) :
    Moves P (onParticipants op) :=
  moves_get_bind fun e =>
    moves_bind hP (moves_orThrow hP _) (fun p => moves_modify (h p)) e

/-- The rules whose domains a feed evaluates have a `WHERE` clause. -/
theorem args_ne_nil_of_mem {r : R} {l : Changed C} (h : r ∈ notifyDomain cfg l) :
    (cfg.rule r).domainExpr.args ≠ [] := by
  simp only [notifyDomain, Config.mem_mergeNotifyList, Config.mem_notifyList, List.not_mem_nil,
    false_or] at h
  rcases h with ⟨c, -, h⟩ | ⟨c, -, h⟩ <;> exact List.ne_nil_of_mem h

end Feed

end Engine

/-! ## The resets of a call -/

def Op.IsReset : Op → Prop
  | .feed _ _ | .eventWorker _ _ | .enableRule _ _ | .enableEHS _ | .participants _ => False
  | .resetRule _ | .resetRules | .resetCond _ | .resetConds | .reset => True

/-- What a call of a reset function resets. -/
def Op.resets (cfg : Config C R) : Op → Option ((C → Bool) × (R → Bool))
  | .feed _ _ | .eventWorker _ _ | .enableRule _ _ | .enableEHS _ | .participants _ => none
  | .resetRule name =>
    match Engine.findRuleByName cfg name with
    | .ok r => some (fun c => c ∈ (cfg.rule r).conditions, fun r' => r' = r)
    | .error _ => none
  | .resetRules =>
    some (fun c => cfg.rmap.any fun r => c ∈ (cfg.rule r).conditions, fun _ => true)
  | .resetCond name =>
    match Engine.findCondByName cfg name with
    | .ok c => some (fun c' => c' = c, fun _ => false)
    | .error _ => none
  | .resetConds => some (fun _ => true, fun _ => false)
  | .reset => some (fun _ => true, fun _ => true)

theorem Condition.reset_reset (c : Condition) : c.reset.reset = c.reset := by
  simp only [Condition.reset, Hitmap.reset, Condition.mk.injEq, Hitmap.mk.injEq, true_and,
    and_true]
  funext s t
  split_ifs <;> rfl

omit [DecidableEq C] in
theorem BooleanExpr.reset_eq (e : BooleanExpr C) (sync : ℕ → SyncTable) :
    e.reset sync = sync := List.foldl_fixed _

namespace Engine

variable (cfg : Config C R)

theorem final_resetRuleOf (r : R) (e : Engine C R) : final (resetRuleOf cfg r) e =
    clear cfg (fun c => c ∈ (cfg.rule r).conditions) (fun r' => r' = r) e := by
  have hrules : Function.update e.rules r ((e.rules r).reset (cfg.rule r)) = fun r' =>
      if decide (r' = r) = true then (e.rules r').reset (cfg.rule r') else e.rules r' := by
    funext r'
    rcases eq_or_ne r' r with rfl | hne
    · simp
    · simp [hne]
  simp only [final, resetRuleOf, modify_apply, clear, hrules, decide_eq_true_eq]

omit [LinearOrder R] in
/-- A reset after a reset resets what one of them does. -/
theorem clear_clear (cs cs' : C → Bool) (rs rs' : R → Bool) (e : Engine C R) :
    clear cfg cs rs (clear cfg cs' rs' e) =
      clear cfg (fun c => cs' c || cs c) (fun r => rs' r || rs r) e := by
  have hr : ∀ (k : RuleConfig C) (r : Rule C), (r.reset k).reset k = r.reset k := fun k r => by
    simp only [Rule.reset, BooleanExpr.reset_eq]
  simp only [clear, Engine.mk.injEq, and_true]
  constructor <;> funext x
  · rcases Bool.eq_false_or_eq_true (cs x) with h | h <;>
      rcases Bool.eq_false_or_eq_true (cs' x) with h' | h' <;> simp [h, h', Condition.reset_reset]
  · rcases Bool.eq_false_or_eq_true (rs x) with h | h <;>
      rcases Bool.eq_false_or_eq_true (rs' x) with h' | h' <;> simp [h, h', hr]

/-- Resetting rules one after the other is resetting them and their conditions at once. -/
theorem final_resetRulesOf : ∀ (rs : List R) (e : Engine C R), final (resetRulesOf cfg rs) e =
    clear cfg (fun c => rs.any fun r => c ∈ (cfg.rule r).conditions) (fun r => r ∈ rs) e
  | [], e => by
    show e = _
    simp [clear]
  | r :: rs, e => by
    have h : resetRuleOf cfg r e = .ok () (final (resetRuleOf cfg r) e) := rfl
    unfold resetRulesOf
    rw [final_bind_ok h, final_resetRulesOf rs, final_resetRuleOf, clear_clear]
    simp only [List.any_cons, List.mem_cons, Bool.decide_or]

theorem final_reset_exec (e : Engine C R) : ∀ {op : Op}, op.IsReset →
    final (op.exec cfg) e = match op.resets cfg with
      | none => e
      | some (cs, rs) => clear cfg cs rs e
  | .resetRule name, _ => by
    simp only [Op.exec, resetRule, Op.resets]
    cases findRuleByName cfg name with
    | error err => rfl
    | ok r => exact final_resetRuleOf cfg r e
  | .resetRules, _ => by
    refine (final_resetRulesOf cfg cfg.rmap e).trans ?_
    simp only [Op.resets, cfg.mem_rmap, decide_true]
  | .resetCond name, _ => by
    simp only [Op.exec, resetCond, Op.resets]
    cases findCondByName cfg name with
    | error err => rfl
    | ok c =>
      have hconds : Function.update e.conds c (e.conds c).reset = fun c' =>
          if decide (c' = c) = true then (e.conds c').reset else e.conds c' := by
        funext c'
        rcases eq_or_ne c' c with rfl | hne
        · simp
        · simp [hne]
      simp [final, bind_apply, clear, hconds]
  | .resetConds, _ => by simp [Op.exec, final, resetConds, clear, Op.resets]
  | .reset, _ => by
    have h : resetConds (C := C) (R := R) e =
        .ok () (clear cfg (fun _ => true) (fun _ => false) e) := by simp [resetConds, clear]
    simp only [Op.exec, reset, Op.resets]
    rw [final_bind_ok h, resetRules, final_resetRulesOf, clear_clear]
    simp [cfg.mem_rmap]

section Ok

variable (ok : ResetPred C R)

/-- The rules that a pass resets are reset in states that satisfy `ok`. -/
def PassResets (now : ℤ) : List R → Engine C R → Prop
  | [], _ => True
  | r :: rs, e =>
    (∀ e', raiseAlarm cfg now r e = .ok true e' →
      ok (fun c => c ∈ (cfg.rule r).conditions) (fun r' => r' = r) e') ∧
    PassResets now rs (final (evaluateRule cfg now r) e)

/-- Every reset the call makes satisfies `ok`. -/
def ResetsOk (op : Op) (e : Engine C R) : Prop :=
  match op with
  | .feed msg now => ∀ l e₁ e₂, matchConds cfg msg cfg.cmap {} e = .ok l e₁ →
      evaluateRulesDomain cfg (notifyDomain cfg l) e₁ = .ok () e₂ →
      PassResets cfg ok now (notifyStatus cfg l) e₂
  | .eventWorker now tod => PassResets cfg ok tod
      (notifyStatus cfg { status := (deliverDue cfg now e).2 }) (deliverDue cfg now e).1
  | op => ∀ cs rs, op.resets cfg = some (cs, rs) → ok cs rs e

variable {cfg ok} {I : Engine C R → Prop} {now : ℤ}

/-- What raising an alarm keeps, and a reset that satisfies `ok`, a round keeps. -/
theorem evaluateRule_keeps {r : R} (hraise : Moves (fun e e' => I e → I e') (raiseAlarm cfg now r))
    (hemit : ∀ e log, I e → I { e with log })
    (hclear : ∀ cs rs e, ok cs rs e → I e → I (clear cfg cs rs e)) {e : Engine C R}
    (hok : ∀ e', raiseAlarm cfg now r e = .ok true e' →
      ok (fun c => c ∈ (cfg.rule r).conditions) (fun r' => r' = r) e') (h : I e) :
    I (final (evaluateRule cfg now r) e) := by
  unfold evaluateRule
  rcases hr : raiseAlarm cfg now r e with ⟨_ | _, e'⟩ | ⟨err, e'⟩
  · rw [final_bind_ok hr]
    exact hraise.of_ok hr h
  · rw [final_bind_ok hr]
    have hreset : resetRuleOf cfg r e' = .ok () (final (resetRuleOf cfg r) e') := rfl
    simp only [if_true]
    rw [final_bind_ok hreset, final_resetRuleOf]
    exact hemit _ _ (hclear _ _ e' (hok e' hr) (hraise.of_ok hr h))
  · rw [final_bind_error hr]
    exact hraise.of_error hr h

theorem evaluateRules_keeps
    (hraise : ∀ r, Moves (fun e e' => I e → I e') (raiseAlarm cfg now r))
    (hemit : ∀ e log, I e → I { e with log })
    (hclear : ∀ cs rs e, ok cs rs e → I e → I (clear cfg cs rs e)) :
    ∀ (rs : List R) (e : Engine C R), PassResets cfg ok now rs e → I e →
      I (final (evaluateRules cfg now rs) e)
  | [], _, _, h => h
  | r :: rs, e, hok, h => by
    have h' := evaluateRule_keeps (hraise r) hemit hclear hok.1 h
    have hrs := hok.2
    unfold evaluateRules
    rcases hr : evaluateRule cfg now r e with ⟨_, e'⟩ | ⟨err, e'⟩
    · rw [final_ok hr] at h' hrs
      rw [final_bind_ok hr]
      exact evaluateRules_keeps hraise hemit hclear rs e' hrs h'
    · rw [final_error hr] at h'
      rw [final_bind_error hr]
      exact h'

variable (cfg) in
/-- A rule asks for its reset only with error handling. -/
theorem raiseAlarm_true {r : R} {e e' : Engine C R} (h : raiseAlarm cfg now r e = .ok true e') :
    e.EHS = true := by
  obtain ⟨fired, e₁, h₁, h⟩ := bind_ok.1 h
  have hEHS : e₁.EHS = e.EHS := by
    rw [← final_ok h₁, final_onRule]
  cases fired with
  | false => cases h
  | true =>
    simp only [if_true, bind_apply, get_apply] at h
    cases hmsg : (cfg.rule r).alarmMsg.message (cfg.rule r) (cfg.view e₁) (e₁.rules r) with
    | error err => simp [hmsg] at h
    | ok msg =>
      by_contra hoff
      simp [hmsg, emit, act, bind_apply, hEHS, hoff] at h

theorem passResets_of_ehs : ∀ (rs : List R) (e : Engine C R), e.EHS = false →
    PassResets cfg ok now rs e
  | [], _, _ => trivial
  | r :: rs, e, h => by
    have hround : (final (evaluateRule cfg now r) e).EHS = false := by
      have hany : ∀ e', raiseAlarm cfg now r e = .ok true e' →
          anyReset (fun c => c ∈ (cfg.rule r).conditions) (fun r' => r' = r) e' :=
        fun _ _ => trivial
      refine evaluateRule_keeps (I := fun e => e.EHS = false) ?_ (fun _ _ h => h)
        (fun _ _ _ _ h => h) hany h
      refine moves_raiseAlarm cfg (Pre.keeps _) (fun e h => ?_) fun _ _ h => h
      rw [final_onRule]
      exact h
    refine ⟨fun e' hr => ?_, passResets_of_ehs rs _ hround⟩
    rw [raiseAlarm_true cfg hr] at h
    cases h

end Ok

/-! ## The steps of a call -/

section Calls

variable (ok : ResetPred C R)

theorem emit_steps (o : Output) : Moves (Steps cfg ok) (emit o) :=
  moves_modify fun _ => .single (.emitted _)

theorem matchCond_steps (c : C) (msg : Msg) : Moves (Steps cfg ok) (matchCond cfg c msg) := by
  refine moves_bind (pre_steps cfg ok) (fun e => ?_) fun r => ?_
  · rw [onCond, final_zoom]
    exact .single (.matched c msg)
  · rcases r with _ | ⟨change, _ | ⟨ts, s, t⟩⟩
    · exact moves_pure (pre_steps cfg ok) _
    · exact moves_pure (pre_steps cfg ok) _
    · refine moves_bind (pre_steps cfg ok) (moves_modify fun e => ?_) fun _ =>
        moves_pure (pre_steps cfg ok) _
      exact .single (.events _)

theorem matchConds_steps (msg : Msg) (cs : List C) (l : Changed C) :
    Moves (Steps cfg ok) (matchConds cfg msg cs l) :=
  moves_matchConds cfg (pre_steps cfg ok) (fun c => matchCond_steps cfg ok c msg)
    (emit_steps cfg ok) cs l

theorem evaluateRulesDomain_steps (l : Changed C) :
    Moves (Steps cfg ok) (evaluateRulesDomain cfg (notifyDomain cfg l)) := by
  refine moves_evaluateRulesDomain cfg (pre_steps cfg ok) _ fun r hr e => ?_
  rw [final_onRule]
  exact .single (.domain r (args_ne_nil_of_mem cfg hr))

theorem raiseAlarm_steps (now : ℤ) (r : R) : Moves (Steps cfg ok) (raiseAlarm cfg now r) := by
  refine moves_raiseAlarm cfg (pre_steps cfg ok) (fun e => ?_) (emit_steps cfg ok)
  rw [final_onRule]
  exact .single (.evaluated r now)

variable {cfg ok}

theorem evaluateRules_steps {now : ℤ} {rs : List R} {e : Engine C R}
    (h : PassResets cfg ok now rs e) : Steps cfg ok e (final (evaluateRules cfg now rs) e) := by
  refine evaluateRules_keeps (I := Steps cfg ok e) (fun r e' h => ?_)
    (fun e' log h => h.tail (.emitted log)) (fun cs rs e' hok h => h.tail (.cleared cs rs hok))
    rs e h .refl
  exact h.trans (raiseAlarm_steps cfg ok now r e')

theorem deliver_steps : ∀ (evs : List (TimingEvent C)) (e : Engine C R) (status : List C),
    Steps cfg ok e { e with conds := (deliver cfg evs e.conds status).1 }
  | [], _, _ => .refl
  | ev :: evs, e, status => by
    refine .head (.delivered ev) ?_
    exact deliver_steps evs { e with
      conds := Function.update e.conds ev.cond
        ((e.conds ev.cond).event (cfg.cond ev.cond) ev.sIdx ev.tIdx ev.ts).1 } _

theorem deliverDue_steps (now : ℤ) (e : Engine C R) : Steps cfg ok e (deliverDue cfg now e).1 :=
  (deliver_steps (e.events.takeWhile fun ev => ev.ts < now) e []).tail (.events _)

theorem feed_steps {msg : Msg} {now : ℤ} {e : Engine C R}
    (h : ResetsOk cfg ok (.feed msg now) e) :
    Steps cfg ok e (final (feed cfg msg now) e) := by
  unfold feed
  rcases h₁ : matchConds cfg msg cfg.cmap {} e with ⟨l, e₁⟩ | ⟨err, e₁⟩
  · rw [final_bind_ok h₁]
    refine ((matchConds_steps cfg ok msg _ _).of_ok h₁).trans ?_
    rcases h₂ : evaluateRulesDomain cfg (notifyDomain cfg l) e₁ with ⟨_, e₂⟩ | ⟨err, e₂⟩
    · rw [final_bind_ok h₂]
      refine ((evaluateRulesDomain_steps cfg ok l).of_ok h₂).trans ?_
      exact evaluateRules_steps (h l e₁ e₂ h₁ h₂)
    · rw [final_bind_error h₂]
      exact (evaluateRulesDomain_steps cfg ok l).of_error h₂
  · rw [final_bind_error h₁]
    exact (matchConds_steps cfg ok msg _ _).of_error h₁

variable (cfg) in
omit [LinearOrder R] in
theorem matchConds_ehs (msg : Msg) (cs : List C) (l : Changed C) :
    Moves (fun e e' : Engine C R => e'.EHS = e.EHS) (matchConds cfg msg cs l) := by
  have hP : Pre fun e e' : Engine C R => e'.EHS = e.EHS := Pre.frame EHS
  refine moves_matchConds cfg hP (fun c => ?_) (fun _ => moves_modify fun _ => rfl) cs l
  refine moves_bind hP (fun e => ?_) fun r => ?_
  · rw [onCond, final_zoom]
  · rcases r with _ | ⟨change, _ | ⟨ts, s, t⟩⟩
    · exact moves_pure hP _
    · exact moves_pure hP _
    · exact moves_bind hP (moves_modify fun _ => rfl) fun _ => moves_pure hP _

/-- Without error handling a feed resets nothing. -/
theorem resetsOk_feed_of_ehs {msg : Msg} {now : ℤ} {e : Engine C R} (h : e.EHS = false) :
    ResetsOk cfg ok (.feed msg now) e := by
  intro l e₁ e₂ h₁ h₂
  have hmatch : e₁.EHS = e.EHS := (matchConds_ehs cfg msg _ _).of_ok h₁
  have hdomains : e₂.EHS = e₁.EHS := by
    refine Moves.of_ok (P := fun e e' => e'.EHS = e.EHS) ?_ h₂
    refine moves_evaluateRulesDomain cfg (Pre.frame EHS) _ fun r _ e => ?_
    rw [final_onRule]
  exact passResets_of_ehs _ e₂ (hdomains.trans (hmatch.trans h))

theorem exec_steps {op : Op} {e : Engine C R} (h : ResetsOk cfg ok op e) :
    Steps cfg ok e (final (op.exec cfg) e) := by
  have hreset : op.IsReset → (∀ cs rs, op.resets cfg = some (cs, rs) → ok cs rs e) →
      Steps cfg ok e (final (op.exec cfg) e) := by
    intro hop h
    rw [final_reset_exec cfg e hop]
    rcases ho : op.resets cfg with _ | ⟨cs, rs⟩
    · exact .refl
    · exact .single (.cleared cs rs (h cs rs ho))
  cases op with
  | feed msg now => exact feed_steps h
  | eventWorker now tod => exact (deliverDue_steps now e).trans (evaluateRules_steps h)
  | enableRule name flag =>
    exact moves_enableRule cfg (pre_steps cfg ok) name (fun r e => .single (.switched r flag)) e
  | enableEHS flag => exact .single (.supervised flag)
  | participants op =>
    exact moves_onParticipants (pre_steps cfg ok) op (fun p e => .single (.participants p)) e
  | resetRule | resetRules | resetCond | resetConds | reset => exact hreset trivial h

end Calls

end Engine

/-! ## Runs -/

open Engine

/-- The states the calls of the engine lead to from its construction. -/
def Reachable (cfg : Config C R) : Engine C R → Prop :=
  ReflTransGen (fun e e' => ∃ op : Op, e' = final (op.exec cfg) e) cfg.init

/-- The states of a run from the construction of the engine in which each call satisfies `ok`. -/
def Run (cfg : Config C R) (ok : Op → Engine C R → Prop) : Engine C R → Prop :=
  ReflTransGen (fun e e' => ∃ op : Op, ok op e ∧ e' = final (op.exec cfg) e) cfg.init

/-- A state the engine passes through, between its calls or in one of them. -/
def Passed (cfg : Config C R) : Engine C R → Prop := Steps cfg anyReset cfg.init

theorem Reachable.step {cfg : Config C R} {e : Engine C R} (h : Reachable cfg e) (op : Op) :
    Reachable cfg (final (op.exec cfg) e) := h.tail ⟨op, rfl⟩

theorem Run.step {cfg : Config C R} {ok : Op → Engine C R → Prop} {e : Engine C R}
    (h : Run cfg ok e) (op : Op) (hop : ok op e) : Run cfg ok (final (op.exec cfg) e) :=
  h.tail ⟨op, hop, rfl⟩

theorem Run.steps {cfg : Config C R} {ok : ResetPred C R} {e : Engine C R}
    (h : Run cfg (ResetsOk cfg ok) e) : Steps cfg ok cfg.init e := by
  induction h with
  | refl => exact .refl
  | tail _ h ih =>
    obtain ⟨op, hop, rfl⟩ := h
    exact ih.trans (exec_steps hop)

theorem passResets_any (cfg : Config C R) (now : ℤ) : ∀ (rs : List R) (e : Engine C R),
    PassResets cfg anyReset now rs e
  | [], _ => trivial
  | _ :: rs, _ => ⟨fun _ _ => trivial, passResets_any cfg now rs _⟩

theorem resetsOk_any (cfg : Config C R) (op : Op) (e : Engine C R) :
    ResetsOk cfg anyReset op e := by
  cases op with
  | feed msg now => exact fun _ _ _ _ _ => passResets_any cfg _ _ _
  | eventWorker now tod => exact passResets_any cfg _ _ _
  | enableRule | enableEHS | participants => exact fun _ _ _ => trivial
  | resetRule | resetRules | resetCond | resetConds | reset => exact fun _ _ _ => trivial

theorem Reachable.passed {cfg : Config C R} {e : Engine C R} (he : Reachable cfg e) :
    Passed cfg e :=
  Run.steps (ReflTransGen.mono (fun e _ ⟨op, h⟩ => ⟨op, resetsOk_any cfg op e, h⟩) _ _ he)

theorem Passed.invariant {cfg : Config C R} {I : Engine C R → Prop} (hinit : I cfg.init)
    (hstep : ∀ e e', I e → Step cfg anyReset e e' → I e') {e : Engine C R}
    (he : Passed cfg e) : I e := by
  induction he with
  | refl => exact hinit
  | tail _ h ih => exact hstep _ _ ih h

end MfExtensions
