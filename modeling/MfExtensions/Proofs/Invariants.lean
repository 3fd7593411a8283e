import MfExtensions.Proofs.Condition
import MfExtensions.Proofs.DomainExpr
import MfExtensions.Proofs.Evaluate
import MfExtensions.Proofs.Steps

/-!
# Invariants of the engine

In every state the engine passes through the index maps are numbered, the domains of a rule have an
entry for each of its conditions and none of them is null, and a rule without a `WHERE` clause has
the one domain that restricts nothing.
-/

namespace MfExtensions

open Exec

variable {C R : Type} [DecidableEq C] [LinearOrder R]

namespace Rule

variable (k : RuleConfig C) (V : View C)

/-- What trying one assignment keeps, evaluating the rule keeps. -/
theorem moves_evaluate {P : Rule C → Rule C → Prop} (hP : Pre P) (now : ℤ)
    (h : ∀ value domain, Moves P (booleanEvaluate k V now value domain)) :
    Moves P (evaluate k V now) := by
  have hrec : ∀ (domain : Domain) (l : List ((C × Bool) × CondDomain)) (value : Domain),
      Moves P (recursiveEvaluate k V now domain l value) := by
    intro domain l
    induction l with
    | nil => exact fun value => h value domain
    | cons p rest ih =>
      obtain ⟨⟨c, primitive⟩, d⟩ := p
      intro value
      have hcells : ∀ ranges, Moves P ((cellsOf ranges).anyM fun v =>
          recursiveEvaluate k V now domain rest (value ++ [v])) :=
        fun ranges => moves_anyM hP fun v _ => ih _
      unfold recursiveEvaluate
      cases condDomainIsNull d with
      | true => exact fun r => hP.refl r
      | false =>
        cases primitive with
        | true => exact moves_bind hP (moves_orThrow hP _) hcells
        | false => exact hcells _
  refine moves_get_bind fun r => ?_
  cases r.enabled with
  | false => exact hP.refl r
  | true =>
    refine moves_anyM hP (fun domain _ => ?_) r
    cases domainIsNull domain with
    | true => exact fun r => hP.refl r
    | false => exact hrec _ _ _

theorem moves_booleanEvaluate {P : Rule C → Rule C → Prop} (now : ℤ) {value domain : Domain}
    (hsync : ∀ r sync, P r { r with sync })
    (hraise : ∀ r s, k.booleanExpr.evaluate V k.conditions value domain
      ⟨domainCtorNullOf domain.length, r.sync⟩ = .ok true s →
      P r (raise k V now s.alarm { r with sync := s.sync }))
    (hrepeat : ∀ r sync key, P r { r with
      sync, lastAlarm := some key, alarmCount := r.alarmCount + 1 }) :
    Moves P (booleanEvaluate k V now value domain) := by
  intro r
  unfold final
  rw [booleanEvaluate_apply]
  rcases he : k.booleanExpr.evaluate V k.conditions value domain
    ⟨domainCtorNullOf domain.length, r.sync⟩ with ⟨_ | _, s⟩ | ⟨e, s⟩
  · exact hsync r s.sync
  · simp only
    cases r.alarms.lookup s.alarm with
    | none => exact hraise r s he
    | some lt =>
      simp only
      split_ifs
      · exact hrepeat r s.sync s.alarm
      · exact hsync r s.sync
  · exact hsync r s.sync

/-- Evaluating a rule changes neither its domains nor whether it is enabled. -/
theorem evaluate_frame (now : ℤ) : Moves (fun r r' : Rule C => (r'.domains, r'.enabled) =
    (r.domains, r.enabled)) (evaluate k V now) :=
  moves_evaluate k V (Pre.frame fun r : Rule C => (r.domains, r.enabled)) now
    fun _ _ => moves_booleanEvaluate k V now (fun _ _ => rfl) (fun _ _ _ => rfl) fun _ _ _ => rfl

/-- What the engine keeps true of a rule. -/
structure WF (r : Rule C) : Prop where
  proper : ∀ d ∈ r.domains, Domain.Proper k.conditions.length d
  any : k.domainExpr = [] → r.domains = [domainCtorAny k.conditions.length]

theorem wf_init : WF k k.init := by
  refine ⟨fun d hd => ?_, fun h => by simp [RuleConfig.init, h]⟩
  simp only [RuleConfig.init] at hd
  split_ifs at hd
  · rw [List.mem_singleton.1 hd]
    exact Domain.proper_ctorAny _
  · simp at hd

variable {k}

theorem WF.noNull {r : Rule C} (h : r.WF k) : r.NoNull := fun d hd =>
  (h.proper d hd).domainIsNull (List.length_pos_iff.2 k.conditions_ne_nil)

theorem WF.evaluate {r : Rule C} (h : r.WF k) (now : ℤ) :
    WF k (final (Rule.evaluate k V now) r) := by
  have hd : (final (Rule.evaluate k V now) r).domains = r.domains :=
    congrArg Prod.fst (evaluate_frame k V now r)
  exact ⟨hd ▸ h.proper, fun hk => hd ▸ h.any hk⟩

theorem wf_evaluateDomain (r : Rule C) (hk : k.domainExpr ≠ []) :
    WF k (final (Rule.evaluateDomain k V) r) := by
  obtain ⟨ds, hds, hp, -⟩ := k.domainExpr_evaluate_spec V.conds
  rw [final_ok (evaluateDomain_apply k V hds r)]
  exact ⟨hp, fun h => absurd h hk⟩

theorem WF.reset {r : Rule C} (h : r.WF k) : WF k (r.reset k) := ⟨h.proper, h.any⟩

end Rule

namespace Hitmap

theorem wf_init : WF {} := ⟨IdxMap.numbered_empty, IdxMap.numbered_empty⟩

theorem wf_reset (h : Hitmap) : h.reset.WF := ⟨IdxMap.numbered_empty, IdxMap.numbered_empty⟩

theorem WF.capture {k : CondConfig} {msg : Msg} {src tgt : String} {what : Smatch}
    {h h' : Hitmap} {change : Change} {te : Option CellEvent} (hw : h.WF)
    (hc : capture k msg src tgt what h = some (h', change, te)) : h'.WF := by
  obtain ⟨hs, ht, -, -⟩ := capture_idx hc
  exact ⟨hs ▸ findIndex_numbered hw.src _ _ _, ht ▸ findIndex_numbered hw.tgt _ _ _⟩

end Hitmap

theorem Condition.wf_matchMsg (L : LexicalCast) (k : CondConfig) (msg : Msg) {c : Condition}
    (h : c.hitmap.WF) : (final (Condition.matchMsg L k msg) c).hitmap.WF := by
  rcases Condition.matchMsg_cases L k msg c with
    ⟨c', hkept, hm | ⟨err, hm⟩⟩ | ⟨c₁, hitmap, change, te, -, hcap, hm⟩
  · rw [final_ok hm, hkept.1]
    exact h
  · rw [final_error hm, hkept.1]
    exact h
  · rw [final_ok hm]
    exact h.capture hcap

namespace Engine

variable {cfg : Config C R}

/-- What the engine keeps true of its conditions and rules. -/
structure WF (cfg : Config C R) (e : Engine C R) : Prop where
  conds : ∀ c, (e.conds c).hitmap.WF
  rules : ∀ r, (e.rules r).WF (cfg.rule r)

theorem WF.step {e e' : Engine C R} (h : e.WF cfg) (ok : ResetPred C R) (hs : Step cfg ok e e') :
    e'.WF cfg := by
  have hconds : ∀ (c : C) (x : Condition), x.hitmap.WF →
      ∀ c', (Function.update e.conds c x c').hitmap.WF := fun c x hx =>
    (Function.forall_update_iff e.conds fun _ x => x.hitmap.WF).2 ⟨hx, fun c' _ => h.conds c'⟩
  have hrules : ∀ (r : R) (x : Rule C), x.WF (cfg.rule r) →
      ∀ r', (Function.update e.rules r x r').WF (cfg.rule r') := fun r x hx =>
    (Function.forall_update_iff e.rules fun r' x => x.WF (cfg.rule r')).2
      ⟨hx, fun r' _ => h.rules r'⟩
  cases hs with
  | matched c msg => exact ⟨hconds c _ (Condition.wf_matchMsg _ _ _ (h.conds c)), h.rules⟩
  | events | emitted | supervised | participants => exact ⟨h.conds, h.rules⟩
  | domain r hr =>
    refine ⟨h.conds, hrules r _ (Rule.wf_evaluateDomain _ _ fun hk => hr ?_)⟩
    rw [hk]
    rfl
  | evaluated r now => exact ⟨h.conds, hrules r _ ((h.rules r).evaluate _ now)⟩
  | switched r flag => exact ⟨h.conds, hrules r _ ⟨(h.rules r).proper, (h.rules r).any⟩⟩
  | delivered ev => exact ⟨hconds _ _ ⟨(h.conds _).src, (h.conds _).tgt⟩, h.rules⟩
  | cleared cs rs hok =>
    refine ⟨fun c => ?_, fun r => ?_⟩
    · show (if cs c then (e.conds c).reset else e.conds c).hitmap.WF
      split_ifs
      · exact Hitmap.wf_reset _
      · exact h.conds c
    · show (if rs r then (e.rules r).reset (cfg.rule r) else e.rules r).WF (cfg.rule r)
      split_ifs
      · exact (h.rules r).reset
      · exact h.rules r

theorem WF.steps {e e' : Engine C R} (h : e.WF cfg) (ok : ResetPred C R)
    (hs : Steps cfg ok e e') : e'.WF cfg := by
  induction hs with
  | refl => exact h
  | tail _ hs ih => exact ih.step ok hs

end Engine

theorem Passed.wf {cfg : Config C R} {e : Engine C R} (h : Passed cfg e) : e.WF cfg :=
  h.invariant ⟨fun _ => Hitmap.wf_init, fun r => Rule.wf_init (cfg.rule r)⟩
    fun _ _ hI hs => hI.step _ hs

end MfExtensions
