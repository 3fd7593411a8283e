import MfExtensions.Proofs.Alarms
import MfExtensions.Proofs.Locality

/-!
# The order of the rules in a pass

A round of a pass changes its rule and, if the rule asks for its reset, the conditions of the rule
(`evaluateRule_round`). So where no rule that is reset shares a condition with another rule of the
list, every round is the one its rule would have in the state before the pass (`round_settle`), and
the order of the list is only the order of the reports (`evaluateRules_perm`). A rule that is reset
takes the conditions it shares from the rules after it.
-/

namespace MfExtensions

open Exec

variable {C R : Type} [DecidableEq C] [LinearOrder R]

namespace Engine

/-- What a round makes of its rule, whether it asks for the reset of the rule, and the alarm. -/
structure Round (C : Type) where
  rule : Rule C
  reset : Bool
  alarms : List Output

instance : Inhabited (Round C) := ⟨⟨{}, false, []⟩⟩

variable (cfg : Config C R) (now : ℤ)

/-- How many actions of the rule succeed, none without error handling. -/
def acted (r : R) (e : Engine C R) (x : Rule C) : Except Err ℕ :=
  if e.EHS then x.act (cfg.rule r) (cfg.view e) (cfg.rule r).actions else .ok 0

/-- The round of a rule, unless it throws. -/
def round (r : R) (e : Engine C R) : Except Err (Round C) :=
  match Rule.evaluate (cfg.rule r) (cfg.view e) now (e.rules r) with
  | .error err _ => .error err
  | .ok false x => .ok ⟨x, false, []⟩
  | .ok true x => do
    let msg ← (cfg.rule r).alarmMsg.message (cfg.rule r) (cfg.view e) x
    let n ← acted cfg r e x
    .ok ⟨x, n > 0, [.alarm (cfg.rule r).name msg]⟩

/-- What the round reports. -/
def Round.report (r : R) (x : Round C) : List Output :=
  x.alarms ++ if x.reset then [.alarm (cfg.rule r).name "reseting this rule!"] else []

/-- The rule after the round. -/
def Round.left (r : R) (x : Round C) : Rule C :=
  if x.reset then x.rule.reset (cfg.rule r) else x.rule

/-- The engine after the rounds `x` of the rules `rs`. -/
def settle (rs : List R) (x : R → Round C) (e : Engine C R) : Engine C R :=
  { e with
    conds := fun c =>
      if rs.any fun r => (x r).reset && (cfg.rule r).conditions.contains c then (e.conds c).reset
      else e.conds c
    rules := fun r => if rs.contains r then (x r).left cfg r else e.rules r
    log := e.log ++ rs.flatMap fun r => (x r).report cfg r }

/-! ## One round -/

section Round

variable {cfg now} {r : R} {e e' : Engine C R}

omit [LinearOrder R] in
theorem act_apply : act cfg r e =
    match acted cfg r e (e.rules r) with
    | .ok n => .ok (decide (n > 0)) e
    | .error err => .error err e := by
  unfold act acted
  simp only [bind_apply, get_apply]
  split_ifs
  · simp only [bind_apply]
    cases (e.rules r).act (cfg.rule r) (cfg.view e) (cfg.rule r).actions <;> rfl
  · rfl

/-- A rule raises its alarm as its round says, and changes nothing but itself. -/
theorem raiseAlarm_ok {b : Bool} : raiseAlarm cfg now r e = .ok b e' ↔
    ∃ x, round cfg now r e = .ok x ∧ x.reset = b ∧ e' = { e with
      rules := Function.update e.rules r x.rule, log := e.log ++ x.alarms } := by
  unfold raiseAlarm round
  rw [bind_apply, onRule_apply]
  rcases Rule.evaluate (cfg.rule r) (cfg.view e) now (e.rules r) with ⟨_ | _, s⟩ | ⟨err, s⟩
  · simp [eq_comm]
  · have hview : ∀ log, cfg.view { e with rules := Function.update e.rules r s, log } =
      cfg.view e := fun _ => rfl
    have hacted : ∀ log, acted cfg r { e with rules := Function.update e.rules r s, log } s =
      acted cfg r e s := fun _ => rfl
    simp only [if_true, bind_apply, get_apply, hview, Function.update_self]
    rcases (cfg.rule r).alarmMsg.message (cfg.rule r) (cfg.view e) s with err | msg
    · simp [bind, Except.bind]
    · simp only [orThrow_ok, emit, modify_apply, act_apply, hacted, Function.update_self]
      rcases acted cfg r e s with err | n
      · simp [bind, Except.bind]
      · simp [bind, Except.bind, eq_comm]
  · simp

theorem evaluateRule_round : evaluateRule cfg now r e = .ok () e' ↔
    ∃ x, round cfg now r e = .ok x ∧ e' = settle cfg [r] (fun _ => x) e := by
  have hrules : ∀ x : Round C, (fun r' => if r' ∈ [r] then x.left cfg r' else e.rules r') =
      Function.update e.rules r (x.left cfg r) := by
    intro x
    funext r'
    rcases eq_or_ne r' r with rfl | hne
    · simp
    · simp [hne]
  have hsettle : ∀ x : Round C, (do
      if x.reset then
        resetRuleOf cfg r
        emit (.alarm (cfg.rule r).name "reseting this rule!") : EStateM Err (Engine C R) Unit)
      { e with rules := Function.update e.rules r x.rule, log := e.log ++ x.alarms } =
        .ok () (settle cfg [r] (fun _ => x) e) := by
    rintro ⟨rule, reset, alarms⟩
    simp only [settle, List.contains_iff_mem, hrules]
    cases reset with
    | false => simp [Round.left, Round.report]
    | true => simp [Round.left, Round.report, resetRuleOf, emit, bind_apply]
  unfold evaluateRule
  rw [bind_ok]
  constructor
  · rintro ⟨b, e₁, h₁, h⟩
    obtain ⟨x, hx, rfl, rfl⟩ := raiseAlarm_ok.1 h₁
    rw [hsettle] at h
    exact ⟨x, hx, (EStateM.Result.ok.inj h).2.symm⟩
  · rintro ⟨x, hx, rfl⟩
    exact ⟨x.reset, _, raiseAlarm_ok.2 ⟨x, hx, rfl, rfl⟩, hsettle x⟩

omit [LinearOrder R] in
/-- The round of a rule depends on the rule and what it reads. -/
theorem round_congr (hrule : e'.rules r = e.rules r) (hEHS : e'.EHS = e.EHS)
    (h : (cfg.view e).Agree (cfg.rule r) (cfg.view e')) :
    round cfg now r e' = round cfg now r e := by
  have hacted : ∀ x, acted cfg r e' x = acted cfg r e x := by
    intro x
    rw [acted, acted, hEHS, h.act x _ fun _ hm => hm]
  simp only [round, hrule, h.evaluate, h.message List.mem_cons_self, hacted]

end Round

/-! ## A pass -/

/-- No rule of the list that is reset, were it evaluated now, shares a condition with another. -/
def Independent (rs : List R) (e : Engine C R) : Prop :=
  ∀ r ∈ rs, value? (raiseAlarm cfg now r) e = some true →
    ∀ r' ∈ rs, r' ≠ r → ∀ c ∈ (cfg.rule r).conditions, c ∉ (cfg.rule r').conditions

section Pass

variable {cfg now} {rs : List R} {e e' : Engine C R}

theorem value?_raiseAlarm {r : R} {b : Bool} : value? (raiseAlarm cfg now r) e = some b ↔
    ∃ x, round cfg now r e = .ok x ∧ x.reset = b := by
  constructor
  · intro h
    obtain ⟨x, hx, hb, -⟩ := raiseAlarm_ok.1 (ok_of_value? h)
    exact ⟨x, hx, hb⟩
  · rintro ⟨x, hx, rfl⟩
    exact value?_of_ok (raiseAlarm_ok.2 ⟨x, hx, rfl, rfl⟩)

/-- A round of one rule is not noticed by another, unless it resets a condition they share. -/
theorem round_settle {r r' : R} {x : Round C} (hne : r' ≠ r)
    (h : x.reset = true → ∀ c ∈ (cfg.rule r).conditions, c ∉ (cfg.rule r').conditions) :
    round cfg now r' (settle cfg [r] (fun _ => x) e) = round cfg now r' e := by
  have hconds : ∀ c ∈ (cfg.rule r').conditions,
      (settle cfg [r] (fun _ => x) e).conds c = e.conds c := by
    intro c hc
    simp only [settle, List.any_cons, List.any_nil, Bool.or_false, Bool.and_eq_true,
      List.contains_iff_mem]
    exact if_neg fun hm => h hm.1 c hm.2 hc
  have hrule : (settle cfg [r] (fun _ => x) e).rules r' = e.rules r' := by simp [settle, hne]
  exact round_congr hrule rfl (View.Agree.of_conds rfl rfl hconds)

theorem settle_congr {x y : R → Round C} (h : ∀ r ∈ rs, x r = y r) :
    settle cfg rs x e = settle cfg rs y e := by
  have hany : ∀ c, (rs.any fun r => (x r).reset && (cfg.rule r).conditions.contains c) =
      rs.any fun r => (y r).reset && (cfg.rule r).conditions.contains c := by
    intro c
    rw [Bool.eq_iff_iff, List.any_eq_true, List.any_eq_true]
    exact exists_congr fun r => and_congr_right fun hr => by rw [h r hr]
  have hlog : (rs.flatMap fun r => (x r).report cfg r) =
      rs.flatMap fun r => (y r).report cfg r :=
    List.flatMap_congr fun r hr => by rw [h r hr]
  simp only [settle, hany, hlog, List.contains_iff_mem, Engine.mk.injEq, true_and, and_true]
  funext r
  split_ifs with hr
  · rw [h r hr]
  · rfl

theorem settle_cons (r : R) (x : R → Round C) :
    settle cfg rs x (settle cfg [r] (fun _ => x r) e) = settle cfg (r :: rs) x e := by
  simp only [settle, List.contains_iff_mem, Engine.mk.injEq, true_and]
  refine ⟨?_, ?_, ?_⟩
  · funext c
    simp only [List.any_cons, List.any_nil, Bool.or_false]
    rcases Bool.eq_false_or_eq_true ((x r).reset && (cfg.rule r).conditions.contains c)
      with h | h
    · simp only [h, if_true, Bool.true_or, Condition.reset_reset, ite_self]
    · simp only [h, Bool.false_eq_true, if_false, Bool.false_or]
  · funext r'
    simp only [List.mem_cons, List.not_mem_nil, or_false]
    split_ifs <;> simp_all
  · simp [List.append_assoc]

/-- After the first round of an independent list the others are still to come, as they were. -/
theorem Independent.tail {r : R} {x : Round C} (hr : r ∉ rs)
    (hind : Independent cfg now (r :: rs) e) (hx : round cfg now r e = .ok x) :
    (∀ r' ∈ rs, round cfg now r' (settle cfg [r] (fun _ => x) e) = round cfg now r' e) ∧
      Independent cfg now rs (settle cfg [r] (fun _ => x) e) := by
  have hsame : ∀ r' ∈ rs, round cfg now r' (settle cfg [r] (fun _ => x) e) =
      round cfg now r' e := by
    intro r' hr'
    refine round_settle (fun heq => hr (heq ▸ hr')) fun hreset => ?_
    exact hind r List.mem_cons_self (value?_raiseAlarm.2 ⟨x, hx, hreset⟩) r'
      (List.mem_cons_of_mem _ hr') fun heq => hr (heq ▸ hr')
  refine ⟨hsame, fun r₁ hr₁ h r₂ hr₂ => ?_⟩
  rw [value?_raiseAlarm, hsame r₁ hr₁, ← value?_raiseAlarm] at h
  exact hind r₁ (List.mem_cons_of_mem _ hr₁) h r₂ (List.mem_cons_of_mem _ hr₂)

/-- A pass over an independent list returns if and only if the round of every rule does, and leaves
what the rounds do. -/
theorem evaluateRules_rounds : ∀ {rs : List R} {e e' : Engine C R}, rs.Nodup →
    Independent cfg now rs e → (evaluateRules cfg now rs e = .ok () e' ↔
      ∃ x, (∀ r ∈ rs, round cfg now r e = .ok (x r)) ∧ e' = settle cfg rs x e)
  | [], e, _, _, _ => by
    have hnil : ∀ x, settle cfg [] x e = e := fun x => by simp [settle]
    simp [evaluateRules, hnil, eq_comm]
  | r :: rs, e, _, hnd, hind => by
    obtain ⟨hr, hnd⟩ := List.nodup_cons.1 hnd
    unfold evaluateRules
    constructor
    · intro h
      have hfresh : ∀ r' ∈ rs, r' ≠ r := fun r' hr' heq => hr (heq ▸ hr')
      obtain ⟨⟨⟩, e₁, h₁, h⟩ := bind_ok.1 h
      obtain ⟨y, hy, rfl⟩ := evaluateRule_round.1 h₁
      obtain ⟨hsame, hind'⟩ := hind.tail hr hy
      obtain ⟨x, hx, rfl⟩ := (evaluateRules_rounds hnd hind').1 h
      have hne : ∀ r' ∈ rs, x r' = Function.update x r y r' := fun r' hr' =>
        (Function.update_of_ne (hfresh r' hr') _ _).symm
      refine ⟨Function.update x r y, List.forall_mem_cons.2 ⟨?_, fun r' hr' => ?_⟩, ?_⟩
      · rw [Function.update_self]
        exact hy
      · rw [← hsame r' hr', ← hne r' hr']
        exact hx r' hr'
      · rw [settle_congr hne, ← settle_cons r (Function.update x r y), Function.update_self]
    · rintro ⟨x, hx, rfl⟩
      obtain ⟨hxr, hx⟩ := List.forall_mem_cons.1 hx
      obtain ⟨hsame, hind'⟩ := hind.tail hr hxr
      refine bind_ok.2 ⟨⟨⟩, _, evaluateRule_round.2 ⟨x r, hxr, rfl⟩, ?_⟩
      rw [← settle_cons r x]
      have hx' : ∀ r' ∈ rs, round cfg now r' (settle cfg [r] (fun _ => x r) e) = .ok (x r') :=
        fun r' hr' => (hsame r' hr').trans (hx r' hr')
      exact (evaluateRules_rounds hnd hind').2 ⟨x, hx', rfl⟩

end Pass

/-- Where no rule that is reset shares a condition with another rule of the list, a pass that
returns returns for every order of the list, leaves the same conditions and rules, and raises the
same alarms. -/
theorem evaluateRules_perm (cfg : Config C R) (now : ℤ) {rs rs' : List R} (hnd : rs.Nodup)
    (hperm : rs.Perm rs') {e e₁ : Engine C R} (hind : Independent cfg now rs e)
    (h : evaluateRules cfg now rs e = .ok () e₁) : ∃ e₂ out out',
      evaluateRules cfg now rs' e = .ok () e₂ ∧ e₂.conds = e₁.conds ∧ e₂.rules = e₁.rules ∧
      e₁.log = e.log ++ out ∧ e₂.log = e.log ++ out' ∧ out.Perm out' := by
  obtain ⟨x, hx, rfl⟩ := (evaluateRules_rounds hnd hind).1 h
  have hind' : Independent cfg now rs' e := fun r hr hreset r' hr' =>
    hind r (hperm.mem_iff.2 hr) hreset r' (hperm.mem_iff.2 hr')
  have hx' : ∀ r ∈ rs', round cfg now r e = .ok (x r) := fun r hr => hx r (hperm.mem_iff.2 hr)
  refine ⟨settle cfg rs' x e, _, _,
    (evaluateRules_rounds (hperm.nodup_iff.1 hnd) hind').2 ⟨x, hx', rfl⟩, ?_, ?_, rfl, rfl,
    hperm.flatMap_right _⟩
  · funext c
    simp only [settle, hperm.any_eq]
  · funext r
    simp only [settle, List.contains_iff_mem, hperm.mem_iff]

end Engine

/-! ## Rules that share a condition -/

/-- Two conditions for the same text. The rules 0 and 1 share the first and act on their alarms, the
rule 2 has the second for itself, and the rule 3 compares a count with a truth value. -/
def racingConfig : Config Bool (Fin 4) where
  lex := ⟨fun _ => none, fun _ => none⟩
  EHS := true
  cmap := [false, true]
  rmap := [0, 1, 2, 3]
  cond
    | false => { name := "a", severity := .debug, anySrc := true, e := Regex.literal "a" }
    | true => { name := "b", severity := .debug, anySrc := true, e := Regex.literal "a" }
  rule
    | 0 => .plain "p" [[.cond false]] [] "first" [""] (Eq.refl true)
    | 1 => .plain "q" [[.cond false]] [] "second" [""] (Eq.refl true)
    | 2 => .plain "r" [[.cond true]] [] "third" [""] (Eq.refl true)
    | 3 => .plain "s" [[.func true (.count .none) (.bool .e true)]] [] "fourth" [] (Eq.refl true)
  mem_cmap := mem_bools
  cmap_nodup := bools_nodup
  mem_rmap := by decide
  rmap_nodup := by decide
  condName_inj := by decide
  ruleName_inj := by decide

/-- The state in which a first feed evaluates its rules. -/
def racingState : Engine Bool (Fin 4) :=
  final (Engine.matchConds racingConfig (lossyMsg "x" "a") racingConfig.cmap {}) racingConfig.init

/-- The alarms of a pass. -/
def racingAlarms (rs : List (Fin 4)) : List Output :=
  (final (Engine.evaluateRules racingConfig 0 rs) racingState).log.drop racingState.log.length

/-- The rule that is evaluated first takes the condition from the other, and one that throws takes
the pass from those after it. -/
theorem order_matters : Passed racingConfig racingState ∧ racingState.EHS = true ∧
    Engine.notifyStatus racingConfig { status := [false] } = [0, 1] ∧
    racingAlarms [0, 1] = [.alarm "p" "first", .alarm "p" "reseting this rule!"] ∧
    racingAlarms [1, 0] = [.alarm "q" "second", .alarm "q" "reseting this rule!"] ∧
    Engine.notifyStatus racingConfig { status := [true] } = [2, 3] ∧
    racingAlarms [2, 3] = [.alarm "r" "third", .alarm "r" "reseting this rule!"] ∧
    racingAlarms [3, 2] = [] :=
  ⟨Engine.matchConds_steps racingConfig Engine.anyReset _ _ _ _, by decide +kernel,
    by decide +kernel, by decide +kernel, by decide +kernel, by decide +kernel, by decide +kernel,
    by decide +kernel⟩

theorem order_independent : racingAlarms [0, 2] ≠ racingAlarms [2, 0] ∧
    ∃ e₁ e₂ out out', Engine.evaluateRules racingConfig 0 [0, 2] racingState = .ok () e₁ ∧
      Engine.evaluateRules racingConfig 0 [2, 0] racingState = .ok () e₂ ∧
      e₂.conds = e₁.conds ∧ e₂.rules = e₁.rules ∧ e₁.log = racingState.log ++ out ∧
      e₂.log = racingState.log ++ out' ∧ out.Perm out' := by
  have hind : Engine.Independent racingConfig 0 [0, 2] racingState := by
    unfold Engine.Independent
    decide +kernel
  have hok : value? (Engine.evaluateRules racingConfig 0 [0, 2]) racingState = some () := by
    decide +kernel
  have hnd : ([0, 2] : List (Fin 4)).Nodup := by decide
  obtain ⟨e₂, out, out', h⟩ := Engine.evaluateRules_perm racingConfig 0 hnd
    (List.Perm.swap 2 0 []) hind (ok_of_value? hok)
  exact ⟨by decide +kernel, _, e₂, out, out', ok_of_value? hok, h⟩

end MfExtensions
