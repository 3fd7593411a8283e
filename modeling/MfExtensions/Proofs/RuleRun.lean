import MfExtensions.Lib.Machine
import MfExtensions.Proofs.Invariants
import MfExtensions.RuleRun

/-!
# What a rule fires

An evaluation of a rule tries the assignments of its domains in turn and stops at the first that
throws, or satisfies the expression with a key that may fire: one that is new or, if the rule
repeats its alarms, was recorded longer ago than the hold-off (`evaluate_spec`).
-/

namespace MfExtensions

open Exec Machine

variable {C : Type} [DecidableEq C]

namespace Rule

variable (k : RuleConfig C) (V : View C)

/-! ## The assignments in turn -/

/-- What comes of an assignment. -/
inductive Attempt
  | unsatisfied
  | satisfied (key : Domain)
  | thrown
  deriving DecidableEq

/-- What comes of the assignments one after the other, were none of them the last one tried. -/
def attempts : List (Domain × Domain) → (ℕ → SyncTable) → List Attempt
  | [], _ => []
  | p :: ps, sync =>
    match k.booleanExpr.evaluate V k.conditions p.2 p.1 ⟨domainCtorNullOf p.1.length, sync⟩ with
    | .ok true s => .satisfied s.alarm :: attempts ps s.sync
    | .ok false s => .unsatisfied :: attempts ps s.sync
    | .error _ s => .thrown :: attempts ps s.sync

/-- A key that is new, or that the rule may repeat. -/
def mayFire (now : ℤ) (alarms : List (Domain × ℤ)) (key : Domain) : Bool :=
  match alarms.lookup key with
  | none => true
  | some lt => k.repeatAlarm && now - lt > k.holdoff

/-- No assignment is tried after this one. -/
def stops (now : ℤ) (alarms : List (Domain × ℤ)) : Attempt → Bool
  | .unsatisfied => false
  | .satisfied key => mayFire k now alarms key
  | .thrown => true

/-- An assignment that is not satisfied, or with an old key before the end of its hold-off. -/
def Quiet (now : ℤ) (alarms : List (Domain × ℤ)) : Attempt → Prop
  | .unsatisfied => True
  | .satisfied key => ∃ lt ∈ alarms.lookup key, now - lt ≤ k.holdoff
  | .thrown => False

instance (now : ℤ) (alarms : List (Domain × ℤ)) : DecidablePred (Quiet k now alarms)
  | .unsatisfied => inferInstanceAs (Decidable True)
  | .satisfied key =>
    inferInstanceAs (Decidable (∃ lt ∈ alarms.lookup key, now - lt ≤ k.holdoff))
  | .thrown => inferInstanceAs (Decidable False)

/-- The key the first assignment to stop at fires. -/
def firedOf (now : ℤ) (alarms : List (Domain × ℤ)) (as : List Attempt) : Option Domain :=
  match as.find? (stops k now alarms) with
  | some (.satisfied key) => some key
  | _ => none

/-- The rule with an alarm fired: a new one is recorded, an old one keeps its entry. -/
def fire (now : ℤ) (key : Domain) (r : Rule C) : Rule C :=
  if r.alarms.lookup key = none then raise k V now key r
  else { r with lastAlarm := some key, alarmCount := r.alarmCount + 1 }

theorem firedOf_cons {now : ℤ} {alarms : List (Domain × ℤ)} {a : Attempt} {as : List Attempt}
    (h : stops k now alarms a = false) :
    firedOf k now alarms (a :: as) = firedOf k now alarms as := by
  rw [firedOf, List.find?_cons_of_neg (by simp [h]), ← firedOf]

theorem firedOf_satisfied {now : ℤ} {alarms : List (Domain × ℤ)} {key : Domain}
    {as : List Attempt} (h : mayFire k now alarms key = true) :
    firedOf k now alarms (.satisfied key :: as) = some key := by
  rw [firedOf, List.find?_cons_of_pos (by exact h)]

/-- The search fires the key of the first assignment to stop at, or changes nothing of the
alarms. -/
theorem search_spec (now : ℤ) : ∀ (ps : List (Domain × Domain)) (r : Rule C),
    (∀ key, firedOf k now r.alarms (attempts k V ps r.sync) = some key →
      ∃ sync, ps.anyM (fun p => booleanEvaluate k V now p.2 p.1) r =
        .ok true (fire k V now key { r with sync })) ∧
    (firedOf k now r.alarms (attempts k V ps r.sync) = none →
      ∃ sync, ps.anyM (fun p => booleanEvaluate k V now p.2 p.1) r = .ok false { r with sync } ∨
        ∃ e, ps.anyM (fun p => booleanEvaluate k V now p.2 p.1) r = .error e { r with sync })
  | [], r => ⟨fun key h => by simp [attempts, firedOf] at h, fun _ => ⟨r.sync, .inl rfl⟩⟩
  | p :: ps, r => by
    rw [anyM_cons_apply, booleanEvaluate_apply, attempts]
    rcases k.booleanExpr.evaluate V k.conditions p.2 p.1
      ⟨domainCtorNullOf p.1.length, r.sync⟩ with ⟨_ | _, s⟩ | ⟨e, s⟩
    · -- not satisfied: the search goes on
      dsimp only
      rw [firedOf_cons k rfl]
      exact search_spec now ps { r with sync := s.sync }
    · dsimp only
      rcases hl : r.alarms.lookup s.alarm with _ | lt
      · -- a new key is recorded
        have hfire : mayFire k now r.alarms s.alarm = true := by rw [mayFire, hl]
        rw [firedOf_satisfied k hfire]
        refine ⟨fun key hkey => ⟨s.sync, ?_⟩, fun h => by simp at h⟩
        obtain rfl := Option.some_inj.1 hkey
        rw [fire, if_pos hl]
      · by_cases hrep : (k.repeatAlarm && decide (now - lt > k.holdoff)) = true
        · -- an old key is repeated
          have hfire : mayFire k now r.alarms s.alarm = true := by rw [mayFire, hl]; exact hrep
          rw [firedOf_satisfied k hfire]
          refine ⟨fun key hkey => ⟨s.sync, ?_⟩, fun h => by simp at h⟩
          obtain rfl := Option.some_inj.1 hkey
          dsimp only
          rw [if_pos hrep, fire, if_neg (by simp [hl])]
        · -- an old key stays silent, and the search goes on
          have hstop : stops k now r.alarms (.satisfied s.alarm) = false := by
            rw [stops, mayFire, hl]
            exact Bool.not_eq_true _ ▸ hrep
          dsimp only
          rw [firedOf_cons k hstop, if_neg hrep]
          exact search_spec now ps { r with sync := s.sync }
    · -- the search ends where an assignment throws
      refine ⟨fun key h => ?_, fun _ => ⟨s.sync, .inr ⟨e, rfl⟩⟩⟩
      rw [firedOf, List.find?_cons_of_pos (by rfl)] at h
      simp at h

/-- The key an evaluation fires. -/
def firedKey (now : ℤ) (r : Rule C) : Option Domain :=
  if r.enabled then firedOf k now r.alarms (attempts k V (tries k V r) r.sync) else none

variable {k V} {now : ℤ} {r : Rule C} {key : Domain}

/-- An evaluation fires a key, or returns false or throws without a change of the alarms. -/
theorem evaluate_spec (hnull : r.NoNull) :
    (∃ key sync, firedKey k V now r = some key ∧
      evaluate k V now r = .ok true (fire k V now key { r with sync })) ∨
    firedKey k V now r = none ∧ ∃ sync, evaluate k V now r = .ok false { r with sync } ∨
      ∃ e, evaluate k V now r = .error e { r with sync } := by
  unfold firedKey
  split_ifs with hen
  · rw [evaluate_eq k V now hen hnull]
    obtain ⟨hsome, hnone⟩ := search_spec k V now (tries k V r) r
    cases hkey : firedOf k now r.alarms (attempts k V (tries k V r) r.sync) with
    | none => exact .inr ⟨rfl, hnone hkey⟩
    | some key =>
      obtain ⟨sync, hsync⟩ := hsome key hkey
      exact .inl ⟨key, sync, rfl, hsync⟩
  · refine .inr ⟨rfl, r.sync, .inl ?_⟩
    rw [Bool.not_eq_true] at hen
    rw [evaluate, bind_apply, get_apply]
    simp only [hen, Bool.not_false, if_true, pure_apply]
    rw [← hen]

/-- The key fired is that of the first assignment to stop at. -/
theorem firedOf_eq_some {alarms : List (Domain × ℤ)} {l : List Attempt} :
    firedOf k now alarms l = some key ↔ ∃ as bs, l = as ++ .satisfied key :: bs ∧
      (∀ a ∈ as, stops k now alarms a = false) ∧ mayFire k now alarms key = true := by
  have hfind : firedOf k now alarms l = some key ↔
      l.find? (stops k now alarms) = some (.satisfied key) := by
    unfold firedOf
    rcases l.find? (stops k now alarms) with _ | _ | key' | _ <;> simp
  rw [hfind, List.find?_eq_some_iff_append]
  simp only [Bool.not_eq_true']
  constructor
  · rintro ⟨hfire, as, bs, hl, has⟩
    exact ⟨as, bs, hl, has, hfire⟩
  · rintro ⟨as, bs, hl, has, hfire⟩
    exact ⟨hfire, as, bs, hl, has⟩

/-- A rule that repeats its alarms goes on after the quiet assignments only. -/
theorem stops_eq_false_iff (hrep : k.repeatAlarm = true) {alarms : List (Domain × ℤ)}
    {a : Attempt} : stops k now alarms a = false ↔ Quiet k now alarms a := by
  rcases a with _ | key | _
  · exact ⟨fun _ => trivial, fun _ => rfl⟩
  · rw [stops, mayFire, Quiet]
    rcases hl : alarms.lookup key with _ | lt
    · simp
    · simp [hrep]
  · simp [stops, Quiet]

/-- The key that a rule in use fires is that of a satisfied assignment after quiet ones, new or
past its hold-off. -/
theorem firedKey_eq_some (hrep : k.repeatAlarm = true) :
    firedKey k V now r = some key ↔ r.enabled = true ∧ ∃ as bs,
      attempts k V (tries k V r) r.sync = as ++ .satisfied key :: bs ∧
      (∀ a ∈ as, Quiet k now r.alarms a) ∧
      ∀ lt, r.alarms.lookup key = some lt → k.holdoff < now - lt := by
  have hmay : mayFire k now r.alarms key = true ↔
      ∀ lt, r.alarms.lookup key = some lt → k.holdoff < now - lt := by
    rw [mayFire]
    rcases r.alarms.lookup key with _ | lt <;> simp [hrep]
  unfold firedKey
  by_cases hen : r.enabled = true
  · rw [if_pos hen, firedOf_eq_some, hmay]
    simp only [stops_eq_false_iff hrep, hen, true_and]
  · rw [if_neg hen]
    simp [hen]

theorem fire_alarms : (fire k V now key r).alarms =
    if r.alarms.lookup key = none then r.alarms ++ [(key, now)] else r.alarms := by
  unfold fire
  split_ifs <;> rfl

theorem fire_lastAlarm : (fire k V now key r).lastAlarm = some key := by
  unfold fire
  split_ifs <;> rfl

theorem fire_domains : (fire k V now key r).domains = r.domains := by
  unfold fire
  split_ifs <;> rfl

theorem fire_alarms_ne_nil : (fire k V now key r).alarms ≠ [] := by
  rw [fire_alarms]
  split_ifs with h
  · simp
  · intro hnil
    rw [hnil] at h
    exact h rfl

/-- The alarm of a rule is the one it fired last. -/
theorem getAlarm_fire : (fire k V now key r).getAlarm = .ok key := by
  rw [getAlarm, if_neg, fire_lastAlarm]
  rw [List.isEmpty_iff]
  exact fire_alarms_ne_nil

/-- Evaluating domains changes the domains only, and leaves none with a null entry. -/
theorem final_evaluateDomain (r : Rule C) : ∃ ds,
    final (evaluateDomain k V) r = { r with domains := ds } ∧
      ∀ d ∈ ds, Domain.Proper k.conditions.length d := by
  obtain ⟨ds, hds, hproper, -⟩ := k.domainExpr_evaluate_spec V.conds
  exact ⟨ds, final_ok (evaluateDomain_apply k V hds r), hproper⟩

end Rule

/-! ## Bookkeeping -/

namespace RuleRun

open Rule

variable {k : RuleConfig C} {V : View C} {now : ℤ} {s s' : RuleRun C}

/-- The domains have an entry for each condition, none of them null. -/
def Proper (k : RuleConfig C) (s : RuleRun C) : Prop :=
  ∀ d ∈ s.rule.domains, Domain.Proper k.conditions.length d

theorem Proper.noNull (h : Proper k s) : s.rule.NoNull := fun d hd =>
  (h d hd).domainIsNull (List.length_pos_iff.2 k.conditions_ne_nil)

/-- What an evaluation does to a rule and its histories. -/
theorem step_evaluate (hp : Proper k s) (hs : step k (.evaluate V now) s = some s') :
    (∃ key sync, firedKey k V now s.rule = some key ∧
      s'.rule = fire k V now key { s.rule with sync } ∧
      s'.recorded = newKey s.rule s'.rule ∧ s'.fired = s.fired ++ [(key, now)]) ∨
    firedKey k V now s.rule = none ∧ ∃ sync, s' = { s with rule := { s.rule with sync } } := by
  rcases evaluate_spec hp.noNull with ⟨key, sync, hkey, he⟩ | ⟨hnone, sync, he | ⟨e, he⟩⟩
  · rw [step, he] at hs
    obtain rfl := Option.some_inj.1 hs
    refine .inl ⟨key, sync, hkey, rfl, rfl, ?_⟩
    dsimp only
    rw [report, getAlarm_fire]
  · rw [step, he] at hs
    exact .inr ⟨hnone, sync, (Option.some_inj.1 hs).symm⟩
  · rw [step, he] at hs
    exact .inr ⟨hnone, sync, (Option.some_inj.1 hs).symm⟩

theorem Proper.step {a : RuleAct C} (h : Proper k s) (hs : step k a s = some s') :
    Proper k s' := by
  cases a with
  | evaluate V now =>
    rcases step_evaluate h hs with ⟨key, sync, -, hrule, -⟩ | ⟨-, sync, rfl⟩
    · rw [Proper, hrule, fire_domains]
      exact h
    · exact h
  | evaluateDomain V =>
    obtain rfl := Option.some_inj.1 hs
    obtain ⟨ds, hds, hproper⟩ := final_evaluateDomain (k := k) (V := V) s.rule
    rw [Proper, hds]
    exact hproper
  | enable flag =>
    obtain rfl := Option.some_inj.1 hs
    exact h
  | reset =>
    obtain rfl := Option.some_inj.1 hs
    exact h

theorem proper (h : Reaches (step k) (start k) s) : Proper k s :=
  h.invariant (Rule.wf_init k).proper fun _ _ _ hI _ hs => hI.step hs

/-- Without repetition a rule counts its alarms, and its alarm is the last one recorded. -/
structure Booked (s : RuleRun C) : Prop where
  count : s.rule.alarmCount = s.rule.alarms.length
  last : s.rule.alarms ≠ [] → ∃ key ∈ s.rule.alarms.map Prod.fst,
    s.rule.lastAlarm = some key ∧ s.recorded = some key

/-- Without repetition only a new key fires. -/
theorem lookup_of_firedKey (hrep : k.repeatAlarm = false) {r : Rule C} {key : Domain}
    (h : firedKey k V now r = some key) : r.alarms.lookup key = none := by
  unfold firedKey at h
  split_ifs at h
  obtain ⟨as, bs, -, -, hfire⟩ := firedOf_eq_some.1 h
  unfold mayFire at hfire
  cases hl : r.alarms.lookup key with
  | none => rfl
  | some lt => simp [hl, hrep] at hfire

theorem newKey_fire {r : Rule C} {key : Domain} {sync : ℕ → SyncTable}
    (hnew : r.alarms.lookup key = none) :
    newKey r (fire k V now key { r with sync }) = some key := by
  have hold : r.alarms.find? (fun e => (r.alarms.lookup e.1).isNone) = none := by
    rw [List.find?_eq_none]
    intro e he hnone
    rw [Option.isNone_iff_eq_none, lookup_alarm_eq_none] at hnone
    exact hnone (List.mem_map_of_mem he)
  rw [newKey, fire_alarms]
  dsimp only
  rw [if_pos hnew, List.find?_append, hold]
  simp [hnew]

theorem Booked.step (hrep : k.repeatAlarm = false) {a : RuleAct C} (hp : Proper k s)
    (h : Booked s) (hs : step k a s = some s') : Booked s' := by
  cases a with
  | evaluate V now =>
    rcases step_evaluate hp hs with ⟨key, sync, hkey, hrule, hrecorded, -⟩ | ⟨-, sync, rfl⟩
    · have hnew := lookup_of_firedKey hrep hkey
      have halarms : s'.rule.alarms = s.rule.alarms ++ [(key, now)] := by
        rw [hrule, fire_alarms]
        exact if_pos hnew
      have hcount : s'.rule.alarmCount = s.rule.alarmCount + 1 := by
        rw [hrule, fire]
        split_ifs <;> rfl
      refine ⟨by rw [hcount, halarms, h.count, List.length_append, List.length_singleton],
        fun _ => ⟨key, by simp [halarms], ?_, ?_⟩⟩
      · rw [hrule, fire_lastAlarm]
      · rw [hrecorded, hrule, newKey_fire hnew]
    · exact ⟨h.count, h.last⟩
  | evaluateDomain V =>
    obtain rfl := Option.some_inj.1 hs
    obtain ⟨ds, hds, -⟩ := final_evaluateDomain (k := k) (V := V) s.rule
    refine ⟨?_, ?_⟩
    · rw [hds]
      exact h.count
    · rw [hds]
      exact h.last
  | enable flag =>
    obtain rfl := Option.some_inj.1 hs
    exact ⟨h.count, h.last⟩
  | reset =>
    obtain rfl := Option.some_inj.1 hs
    exact ⟨rfl, fun h => absurd rfl h⟩

/-- The alarms of a rule that does not repeat them: it counts its entries, an evaluation returns
true if and only if it adds one, and the alarm is the last one recorded since the last reset. -/
theorem alarms_booked (hrep : k.repeatAlarm = false) (h : Reaches (step k) (start k) s) :
    s.rule.alarmCount = s.rule.alarms.length ∧
    (∀ V now, if Exec.value? (evaluate k V now) s.rule = some true then
        ∃ key, s.rule.alarms.lookup key = none ∧
          (final (evaluate k V now) s.rule).alarms = s.rule.alarms ++ [(key, now)]
      else (final (evaluate k V now) s.rule).alarms = s.rule.alarms) ∧
    (s.rule.alarms ≠ [] → ∃ key ∈ s.rule.alarms.map Prod.fst, s.rule.lastAlarm = some key ∧
      s.recorded = some key ∧ s.rule.getAlarm = .ok key) ∧
    (s.rule.alarms = [] → s.rule.getAlarm =
      .error (.runtime "get_alarm_message(): no alarm has been triggerd")) := by
  have hp := proper h
  have hb : Booked s := by
    refine (h.invariant (I := fun s => Proper k s ∧ Booked s)
      ⟨(Rule.wf_init k).proper, rfl, fun h => absurd rfl h⟩ ?_).2
    exact fun _ _ _ hI _ hs => ⟨hI.1.step hs, hI.2.step hrep hI.1 hs⟩
  refine ⟨hb.count, fun V now => ?_, fun hne => ?_, fun hnil => ?_⟩
  · rcases evaluate_spec hp.noNull with ⟨key, sync, hkey, he⟩ | ⟨hnone, sync, he | ⟨e, he⟩⟩
    · have hnew := lookup_of_firedKey hrep hkey
      rw [if_pos (value?_of_ok he), final_ok he, fire_alarms]
      exact ⟨key, hnew, if_pos hnew⟩
    · rw [if_neg (by simp [value?_of_ok he]), final_ok he]
    · rw [if_neg (by simp [value?_of_error he]), final_error he]
  · obtain ⟨key, hmem, hlast, hrecorded⟩ := hb.last hne
    refine ⟨key, hmem, hlast, hrecorded, ?_⟩
    rw [getAlarm, if_neg (by rwa [List.isEmpty_iff]), hlast]
  · rw [getAlarm, if_pos (by rw [hnil]; rfl)]

/-- The condition has seen the sources `x` and `y`; the cells of a source are on or off. -/
def sourceView (on : ℕ → Bool) : View Unit where
  lex := ⟨fun _ => none, fun _ => none⟩
  participants := {}
  conds _ :=
    { hitmap :=
        { srcIdx := (OrdMap.empty.insert "x" 0).insert "y" 1
          tgtIdx := OrdMap.empty.insert "t" 0
          cells := fun i _ => { on := on i } } }

/-- A rule that fires on its one condition. -/
def singleRule : RuleConfig Unit := .plain "r" [[.cond ()]] [] "" [] (Eq.refl true)

theorem alarms_booked_second : ∃ s, Reaches (step singleRule) (start singleRule) s ∧
    s.rule.alarmCount = 2 ∧ s.rule.alarmCount = s.rule.alarms.length := by
  have h : Reaches (step singleRule) (start singleRule) _ := reaches_exec
    [.evaluate (sourceView fun i => i == 0) 0, .evaluate (sourceView fun _ => true) 1] rfl
  exact ⟨_, h, rfl, (alarms_booked rfl h).1⟩

/-- After a reset the key recorded last is not the alarm of the rule: it has none. -/
theorem reset_alarm : ∃ s key, Reaches (step singleRule) (start singleRule) s ∧
    s.recorded = some key ∧ s.rule.getAlarm ≠ .ok key := by
  have h : Reaches (step singleRule) (start singleRule) _ := reaches_exec
    [.evaluate (sourceView fun _ => true) 0, .reset] rfl
  exact ⟨_, [(0, 0)], h, rfl, fun heq => nomatch heq⟩

/-! ## Hold-off -/

/-- When a key was fired since the last reset. -/
def times (s : RuleRun C) (key : Domain) : List ℤ :=
  (s.fired.filter fun e => e.1 = key).map Prod.snd

/-- A key is fired again only after the hold-off. -/
def Spaced (k : RuleConfig C) (s : RuleRun C) : Prop :=
  ∀ key, (s.times key).IsChain fun t t' => k.holdoff < t' - t

/-- The keys of the satisfied assignments at an evaluation of a rule in use. -/
def satisfiedKeys (k : RuleConfig C) (V : View C) (r : Rule C) : List Domain :=
  if r.enabled then
    (attempts k V (tries k V r) r.sync).filterMap fun
      | .satisfied key => some key
      | _ => none
  else []

/-- A rule with other histories that nothing reads: the keys satisfied since the last reset, each
with the time of the evaluation, and those of them that had been satisfied longer ago than the
hold-off. -/
structure KeyRun (C : Type) where
  run : RuleRun C
  satisfied : List (Domain × ℤ) := []
  late : List (Domain × ℤ) := []

namespace KeyRun

def start (k : RuleConfig C) : KeyRun C := { run := .start k }

/-- The keys satisfied that were satisfied longer ago than the hold-off. -/
def lateKeys (k : RuleConfig C) (V : View C) (now : ℤ) (d : KeyRun C) : List Domain :=
  (satisfiedKeys k V d.run.rule).filter fun key =>
    d.satisfied.any fun e => e.1 = key ∧ k.holdoff < now - e.2

def step (k : RuleConfig C) (a : RuleAct C) (d : KeyRun C) : Option (KeyRun C) :=
  (RuleRun.step k a d.run).map fun run =>
    match a with
    | .evaluate V now => {
        run
        satisfied := d.satisfied ++ (satisfiedKeys k V d.run.rule).map (·, now)
        late := d.late ++ (lateKeys k V now d).map (·, now) }
    | .reset => { run }
    | _ => { d with run }

/-- Once a key has been satisfied longer ago than the hold-off, the evaluations that satisfy it are
more than the hold-off apart. -/
def Patient (k : RuleConfig C) : RuleAct C → KeyRun C → Prop
  | .evaluate V now, d => ∀ key ∈ lateKeys k V now d, ∀ t, (key, t) ∈ d.late →
      k.holdoff < now - t
  | _, _ => True

instance (k : RuleConfig C) : ∀ (a : RuleAct C) (d : KeyRun C), Decidable (Patient k a d)
  | .evaluate V now, d => decidable_of_iff (∀ key ∈ lateKeys k V now d, ∀ e ∈ d.late,
      e.1 = key → k.holdoff < now - e.2)
      ⟨fun h key hkey t ht => h key hkey (key, t) ht rfl, fun h key hkey e he heq =>
        h key hkey e.2 (heq ▸ he)⟩
  | .evaluateDomain _, _ | .enable _, _ | .reset, _ => inferInstanceAs (Decidable True)

end KeyRun

/-- The entry of a key is as old as its first firing. -/
def Dated (s : RuleRun C) : Prop :=
  ∀ key, s.rule.alarms.lookup key = (s.times key).head?

omit [DecidableEq C] in
theorem times_fired {key key' : Domain} (hf : s'.fired = s.fired ++ [(key, now)]) :
    s'.times key' = if key' = key then s.times key' ++ [now] else s.times key' := by
  unfold times
  rw [hf, List.filter_append, List.map_append]
  split_ifs with heq
  · simp [heq]
  · simp [Ne.symm heq]

omit [DecidableEq C] in
theorem mem_times_fired {key key' : Domain} (hf : s'.fired = s.fired ++ [(key, now)]) {t : ℤ}
    (ht : t ∈ s'.times key') : t ∈ s.times key' ∨ key' = key ∧ t = now := by
  rw [times_fired hf] at ht
  split_ifs at ht with heq
  · exact (List.mem_append.1 ht).imp_right fun ht => ⟨heq, List.mem_singleton.1 ht⟩
  · exact .inl ht

omit [DecidableEq C] in
/-- A firing is a repetition if its key was fired before. -/
theorem mem_tail_times_fired {key key' : Domain} (hf : s'.fired = s.fired ++ [(key, now)]) {t : ℤ}
    (ht : t ∈ (s'.times key').tail) :
    t ∈ (s.times key').tail ∨ key' = key ∧ t = now ∧ ∃ lt ts, s.times key = lt :: ts := by
  rw [times_fired hf] at ht
  split_ifs at ht with heq
  · subst heq
    rcases htimes : s.times key' with _ | ⟨lt, ts⟩
    · simp [htimes] at ht
    · rw [htimes, List.cons_append, List.tail_cons, List.mem_append, List.mem_singleton] at ht
      exact ht.imp_right fun ht => ⟨rfl, ht, lt, ts, rfl⟩
  · exact .inl ht

theorem Dated.fire {key : Domain} {sync : ℕ → SyncTable} (h : Dated s)
    (hrule : s'.rule = fire k V now key { s.rule with sync })
    (hf : s'.fired = s.fired ++ [(key, now)]) : Dated s' := by
  intro key'
  rw [times_fired hf, hrule, fire_alarms]
  have hold := h key'
  dsimp only
  by_cases hnew : s.rule.alarms.lookup key = none
  · rw [if_pos hnew, List.lookup_append]
    split_ifs with heq
    · subst heq
      rw [List.head?_append, ← hold, hnew]
      simp
    · rw [← hold, List.lookup_cons, beq_false_of_ne heq]
      simp
  · rw [if_neg hnew]
    split_ifs with heq
    · subst heq
      obtain ⟨lt, hlt⟩ := Option.ne_none_iff_exists'.1 hnew
      rw [List.head?_append, ← hold, hlt]
      rfl
    · exact hold

theorem Dated.step {a : RuleAct C} (hp : Proper k s) (h : Dated s)
    (hs : step k a s = some s') : Dated s' := by
  cases a with
  | evaluate V now =>
    rcases step_evaluate hp hs with ⟨key, sync, -, hrule, -, hf⟩ | ⟨-, sync, rfl⟩
    · exact h.fire hrule hf
    · exact h
  | evaluateDomain V =>
    obtain rfl := Option.some_inj.1 hs
    obtain ⟨ds, hds, -⟩ := final_evaluateDomain (k := k) (V := V) s.rule
    intro key
    rw [hds]
    exact h key
  | enable flag =>
    obtain rfl := Option.some_inj.1 hs
    exact h
  | reset =>
    obtain rfl := Option.some_inj.1 hs
    exact fun _ => rfl

theorem dated (h : Reaches (step k) (start k) s) : Dated s := by
  refine (h.invariant (I := fun s => Proper k s ∧ Dated s)
    ⟨(Rule.wf_init k).proper, fun _ => rfl⟩ ?_).2
  exact fun _ _ _ hI _ hs => ⟨hI.1.step hs, hI.2.step hI.1 hs⟩

/-- A firing keeps the distance of the alarms if its key was fired long enough ago. -/
theorem spaced_fire {key : Domain} (h : Spaced k s) (hf : s'.fired = s.fired ++ [(key, now)]) :
    Spaced k s' ↔ ∀ t, (s.times key).getLast? = some t → k.holdoff < now - t := by
  constructor
  · intro hs t ht
    have hkey := hs key
    rw [times_fired hf, if_pos rfl, List.isChain_append] at hkey
    exact hkey.2.2 t ht now rfl
  · intro hlast key'
    rw [times_fired hf]
    split_ifs with heq
    · subst heq
      refine List.isChain_append.2 ⟨h key', List.isChain_singleton now, fun t ht t' ht' => ?_⟩
      obtain rfl : now = t' := by simpa using ht'
      exact hlast t ht
    · exact h key'

theorem mem_satisfiedKeys (hrep : k.repeatAlarm = true) {r : Rule C} {key : Domain}
    (hkey : firedKey k V now r = some key) : key ∈ satisfiedKeys k V r := by
  obtain ⟨hen, as, bs, has, -, -⟩ := (firedKey_eq_some hrep).1 hkey
  rw [satisfiedKeys, if_pos hen, has, List.mem_filterMap]
  exact ⟨.satisfied key, List.mem_append_right _ List.mem_cons_self, rfl⟩

/-- What was fired since the last reset was satisfied then, and late if it was fired again. -/
structure Repeated (k : RuleConfig C) (d : KeyRun C) : Prop where
  reaches : Reaches (step k) (start k) d.run
  spaced : Spaced k d.run
  satisfied : ∀ key, ∀ t ∈ d.run.times key, (key, t) ∈ d.satisfied
  late : ∀ key, ∀ t ∈ (d.run.times key).tail, (key, t) ∈ d.late

/-- A key that is fired again has been satisfied longer ago than the hold-off, at its first
firing. -/
theorem Repeated.mem_lateKeys (hrep : k.repeatAlarm = true) {d : KeyRun C} (h : Repeated k d)
    {key : Domain} (hkey : firedKey k V now d.run.rule = some key) {lt : ℤ} {ts : List ℤ}
    (htimes : d.run.times key = lt :: ts) :
    key ∈ KeyRun.lateKeys k V now d ∧ k.holdoff < now - lt := by
  have hlt : d.run.rule.alarms.lookup key = some lt := by
    rw [dated h.reaches key, htimes, List.head?_cons]
  obtain ⟨-, as, bs, -, -, hfire⟩ := (firedKey_eq_some hrep).1 hkey
  have hold := hfire lt hlt
  refine ⟨List.mem_filter.2 ⟨mem_satisfiedKeys hrep hkey, List.any_eq_true.2 ⟨(key, lt), ?_, ?_⟩⟩,
    hold⟩
  · exact h.satisfied key lt (by simp [htimes])
  · simpa using hold

/-- A key that is fired again waited for it, since its last firing was the first one or the key was
late then. -/
theorem Repeated.waited (hrep : k.repeatAlarm = true) {d : KeyRun C} (h : Repeated k d)
    (hok : KeyRun.Patient k (.evaluate V now) d) {key : Domain}
    (hkey : firedKey k V now d.run.rule = some key) {t : ℤ}
    (ht : (d.run.times key).getLast? = some t) : k.holdoff < now - t := by
  rcases htimes : d.run.times key with _ | ⟨lt, ts⟩
  · rw [htimes] at ht
    cases ht
  · obtain ⟨hlate, hold⟩ := h.mem_lateKeys hrep hkey htimes
    rcases List.eq_nil_or_concat ts with rfl | ⟨ts, t', rfl⟩
    · rw [htimes] at ht
      obtain rfl : lt = t := by simpa using ht
      exact hold
    · rw [htimes, List.concat_eq_append, ← List.cons_append, List.getLast?_concat] at ht
      obtain rfl := Option.some_inj.1 ht
      exact hok key hlate t' (h.late key t' (by simp [htimes]))

theorem Repeated.evaluate (hrep : k.repeatAlarm = true) {d : KeyRun C} {s' : RuleRun C}
    (h : Repeated k d) (hok : KeyRun.Patient k (.evaluate V now) d)
    (hs : step k (.evaluate V now) d.run = some s') :
    Repeated k {
      run := s'
      satisfied := d.satisfied ++ (satisfiedKeys k V d.run.rule).map (·, now)
      late := d.late ++ (KeyRun.lateKeys k V now d).map (·, now) } := by
  have hreach := h.reaches.next trivial hs
  rcases step_evaluate (proper h.reaches) hs with ⟨key, sync, hkey, -, -, hf⟩ | ⟨-, sync, rfl⟩
  · have hspaced := (spaced_fire h.spaced hf).2 fun t ht => h.waited hrep hok hkey ht
    refine ⟨hreach, hspaced, fun key' t ht => ?_, fun key' t ht => ?_⟩
    · rcases mem_times_fired hf ht with ht | ⟨rfl, rfl⟩
      · exact List.mem_append_left _ (h.satisfied key' t ht)
      · exact List.mem_append_right _ (List.mem_map_of_mem (mem_satisfiedKeys hrep hkey))
    · rcases mem_tail_times_fired hf ht with ht | ⟨rfl, rfl, lt, ts, htimes⟩
      · exact List.mem_append_left _ (h.late key' t ht)
      · have hlate := (h.mem_lateKeys hrep hkey htimes).1
        exact List.mem_append_right _ (List.mem_map_of_mem hlate)
  · exact ⟨hreach, h.spaced, fun key t ht => List.mem_append_left _ (h.satisfied key t ht),
      fun key t ht => List.mem_append_left _ (h.late key t ht)⟩

theorem Repeated.step (hrep : k.repeatAlarm = true) {a : RuleAct C} {d d' : KeyRun C}
    (h : Repeated k d) (hok : KeyRun.Patient k a d) (hs : KeyRun.step k a d = some d') :
    Repeated k d' := by
  obtain ⟨s', hs', rfl⟩ := Option.map_eq_some_iff.1 hs
  cases a with
  | evaluate V now => exact h.evaluate hrep hok hs'
  | evaluateDomain V =>
    have hreach := h.reaches.next trivial hs'
    obtain rfl := Option.some_inj.1 hs'
    exact ⟨hreach, h.spaced, h.satisfied, h.late⟩
  | enable flag =>
    have hreach := h.reaches.next trivial hs'
    obtain rfl := Option.some_inj.1 hs'
    exact ⟨hreach, h.spaced, h.satisfied, h.late⟩
  | reset =>
    have hreach := h.reaches.next trivial hs'
    obtain rfl := Option.some_inj.1 hs'
    exact ⟨hreach, fun _ => List.isChain_nil, fun key t ht => absurd ht List.not_mem_nil,
      fun key t ht => absurd ht List.not_mem_nil⟩

/-- In a run in which a key, once satisfied longer ago than the hold-off, is satisfied only at
evaluations more than the hold-off apart, a rule fires it again only after the hold-off. -/
theorem holdoff_respected (hrep : k.repeatAlarm = true) {d : KeyRun C}
    (h : Machine.Run (KeyRun.step k) (KeyRun.Patient k) (.start k) d) :
    Spaced k d.run := by
  have hstart : Repeated k (.start k) :=
    ⟨.refl, fun _ => List.isChain_nil, fun key t ht => absurd ht List.not_mem_nil,
      fun key t ht => absurd ht List.not_mem_nil⟩
  exact (h.invariant hstart fun _ _ _ hI hok hs => hI.step hrep hok hs).spaced

/-- A rule that repeats its alarm after ten seconds. -/
def repeatRule : RuleConfig Unit := { singleRule with repeatAlarm := true, holdoff := 10 }

theorem holdoff_respected_second :
    ∃ d : KeyRun Unit, d.run.times [(0, 0)] = [0, 11, 22] ∧ Spaced repeatRule d.run := by
  have h₁ : Machine.Run (KeyRun.step repeatRule) (KeyRun.Patient repeatRule)
      (.start repeatRule) _ :=
    Machine.Run.next .refl (a := .evaluate (sourceView fun _ => true) 0) (by decide +kernel) rfl
  have h₂ := h₁.next (a := .evaluate (sourceView fun _ => true) 11) (by decide +kernel) rfl
  have h₃ := h₂.next (a := .evaluate (sourceView fun _ => true) 22) (by decide +kernel) rfl
  exact ⟨_, by decide +kernel, holdoff_respected rfl h₃⟩

/-- The repeated alarm comes again a second later. -/
theorem third_firing : ∃ s, exec (step repeatRule)
    [.evaluate (sourceView fun _ => true) 0, .evaluate (sourceView fun _ => true) 11,
      .evaluate (sourceView fun _ => true) 12] (start repeatRule) = some s ∧
    s.times [(0, 0)] = [0, 11, 12] ∧ ¬Spaced repeatRule s := by
  refine ⟨_, rfl, by decide +kernel, fun h => ?_⟩
  have := h [(0, 0)]
  revert this
  decide +kernel

/-! ## New keys and old ones -/

/-- A satisfied assignment with a key that is not among the alarms. -/
def isNew (alarms : List (Domain × ℤ)) : Attempt → Bool
  | .satisfied key => (alarms.lookup key).isNone
  | _ => false

theorem isNew_eq_true {alarms : List (Domain × ℤ)} {a : Attempt} :
    isNew alarms a = true ↔ ∃ key, a = .satisfied key ∧ alarms.lookup key = none := by
  rcases a with _ | key | _ <;> simp [isNew]

/-- A quiet assignment has no new key. -/
theorem not_isNew_of_quiet {alarms : List (Domain × ℤ)} {a : Attempt}
    (h : Quiet k now alarms a) : isNew alarms a = false := by
  rw [← Bool.not_eq_true, isNew_eq_true]
  rintro ⟨key, rfl, hnone⟩
  obtain ⟨lt, hlt, -⟩ := h
  rw [hnone] at hlt
  cases hlt

/-- The assignments before the first with a new key. -/
def beforeNew (alarms : List (Domain × ℤ)) (l : List Attempt) : List Attempt :=
  l.takeWhile fun a => !isNew alarms a

theorem beforeNew_append {alarms : List (Domain × ℤ)} {as bs : List Attempt} {a : Attempt}
    (has : ∀ x ∈ as, isNew alarms x = false) (ha : isNew alarms a = true) :
    beforeNew alarms (as ++ a :: bs) = as := by
  rw [beforeNew, List.takeWhile_append_of_pos (fun x hx => by rw [has x hx]; rfl),
    List.takeWhile_cons_of_neg (by simp [ha]), List.append_nil]

theorem exists_first_new {alarms : List (Domain × ℤ)} {l : List Attempt}
    (h : ∃ key, .satisfied key ∈ l ∧ alarms.lookup key = none) :
    ∃ as key bs, l = as ++ .satisfied key :: bs ∧ (∀ a ∈ as, isNew alarms a = false) ∧
      alarms.lookup key = none := by
  obtain ⟨key, hmem, hnone⟩ := h
  have hsome : (l.find? (isNew alarms)).isSome = true :=
    List.find?_isSome.2 ⟨_, hmem, isNew_eq_true.2 ⟨key, rfl, hnone⟩⟩
  obtain ⟨a, ha⟩ := Option.isSome_iff_exists.1 hsome
  obtain ⟨hisNew, as, bs, hl, has⟩ := List.find?_eq_some_iff_append.1 ha
  obtain ⟨key', rfl, hnone'⟩ := isNew_eq_true.1 hisNew
  exact ⟨as, key', bs, hl, fun x hx => by simpa using has x hx, hnone'⟩

/-- With an assignment that has a new key, an evaluation records a new key if and only if the rule
is in use, and no assignment before the first with a new key throws or has an old key past its
hold-off. -/
theorem new_recorded_iff (hrep : k.repeatAlarm = true)
    (h : Reaches (step k) (start k) s) (V : View C) (now : ℤ)
    (hnew : ∃ key, .satisfied key ∈ attempts k V (tries k V s.rule) s.rule.sync ∧
      s.rule.alarms.lookup key = none) :
    (∃ key, .satisfied key ∈ attempts k V (tries k V s.rule) s.rule.sync ∧
      s.rule.alarms.lookup key = none ∧
      (final (evaluate k V now) s.rule).alarms = s.rule.alarms ++ [(key, now)]) ↔
    s.rule.enabled = true ∧
      ∀ a ∈ beforeNew s.rule.alarms (attempts k V (tries k V s.rule) s.rule.sync),
        Quiet k now s.rule.alarms a := by
  have hnull := (proper h).noNull
  constructor
  · rintro ⟨key, -, hnone, halarms⟩
    rcases evaluate_spec hnull with ⟨key', sync, hkey, he⟩ | ⟨-, sync, he | ⟨e, he⟩⟩
    · rw [final_ok he, fire_alarms] at halarms
      dsimp only at halarms
      split_ifs at halarms with hnone'
      · obtain ⟨hen, as, bs, has, hquiet, -⟩ := (firedKey_eq_some hrep).1 hkey
        rw [has, beforeNew_append (fun a ha => not_isNew_of_quiet (hquiet a ha))
          (isNew_eq_true.2 ⟨key', rfl, hnone'⟩)]
        exact ⟨hen, hquiet⟩
      · simp at halarms
    · rw [final_ok he] at halarms
      simp at halarms
    · rw [final_error he] at halarms
      simp at halarms
  · rintro ⟨hen, hquiet⟩
    -- the first assignment with a new key
    obtain ⟨as, key, bs, has, hold, hnone⟩ := exists_first_new hnew
    have hisNew := isNew_eq_true.2 ⟨key, rfl, hnone⟩
    rw [has, beforeNew_append hold hisNew] at hquiet
    have hkey : firedKey k V now s.rule = some key := (firedKey_eq_some hrep).2
      ⟨hen, as, bs, has, hquiet, fun lt hlt => by rw [hnone] at hlt; cases hlt⟩
    refine ⟨key, by simp [has], hnone, ?_⟩
    rcases evaluate_spec hnull with ⟨key', sync, hkey', he⟩ | ⟨hnokey, -⟩
    · obtain rfl : key = key' := Option.some_inj.1 (hkey.symm.trans hkey')
      rw [final_ok he, fire_alarms]
      exact if_pos hnone
    · rw [hkey] at hnokey
      cases hnokey

/-- A rule that repeats its alarm on whatever is a second after the hold-off. -/
theorem new_recorded_iff_second : ∃ s, Reaches (step repeatRule) (start repeatRule) s ∧
    s.rule.alarms = [([(0, 0)], 0)] ∧
    ∃ key, (final (evaluate repeatRule (sourceView fun _ => true) 10) s.rule).alarms =
      [([(0, 0)], 0), (key, 10)] := by
  have h : Reaches (step repeatRule) (start repeatRule) _ := reaches_exec
    [.evaluate (sourceView fun i => i == 0) 0] rfl
  obtain ⟨key, -, -, halarms⟩ := (new_recorded_iff rfl h (sourceView fun _ => true) 10
    ⟨[(1, 0)], by decide +kernel, by decide +kernel⟩).2 ⟨rfl, by decide +kernel⟩
  exact ⟨_, h, rfl, key, halarms⟩

/-- Past the hold-off the old key of the source `x` is fired, and the new one of `y` is not. -/
theorem new_shadowed : ∃ s, Reaches (step repeatRule) (start repeatRule) s ∧
    s.rule.alarms = [([(0, 0)], 0)] ∧
    .satisfied [(1, 0)] ∈ attempts repeatRule (sourceView fun _ => true)
      (tries repeatRule (sourceView fun _ => true) s.rule) s.rule.sync ∧
    Exec.value? (evaluate repeatRule (sourceView fun _ => true) 11) s.rule = some true ∧
    (final (evaluate repeatRule (sourceView fun _ => true) 11) s.rule).alarms = s.rule.alarms := by
  have h : Reaches (step repeatRule) (start repeatRule) _ := reaches_exec
    [.evaluate (sourceView fun i => i == 0) 0] rfl
  exact ⟨_, h, rfl, by decide +kernel, rfl, rfl⟩

end RuleRun

/-- Whatever is called, a rule of the engine lives the life of a rule. -/
theorem Passed.rule_reaches {R : Type} [LinearOrder R] {cfg : Config C R} {e : Engine C R}
    (h : Passed cfg e) (r : R) : ∃ s : RuleRun C,
      Reaches (RuleRun.step (cfg.rule r)) (RuleRun.start (cfg.rule r)) s ∧ s.rule = e.rules r := by
  refine h.invariant (I := fun e => ∀ r, ∃ s : RuleRun C,
    Reaches (RuleRun.step (cfg.rule r)) (RuleRun.start (cfg.rule r)) s ∧ s.rule = e.rules r)
    (fun _ => ⟨_, .refl, rfl⟩) (fun e e' hI hs r => ?_) r
  -- what an action makes of the rule, whichever way the evaluation ends
  have hact : ∀ (r₁ : R) (a : RuleAct C) (x : Rule C),
      (∀ s, s.rule = e.rules r₁ → ∃ s', RuleRun.step (cfg.rule r₁) a s = some s' ∧ s'.rule = x) →
      ∃ s : RuleRun C, Reaches (RuleRun.step (cfg.rule r)) (RuleRun.start (cfg.rule r)) s ∧
        s.rule = Function.update e.rules r₁ x r := by
    intro r₁ a x hx
    by_cases hr : r = r₁
    · subst hr
      obtain ⟨s, hreach, hrule⟩ := hI r
      obtain ⟨s', hs', rfl⟩ := hx s hrule
      exact ⟨s', hreach.next trivial hs', (Function.update_self r _ e.rules).symm⟩
    · rw [Function.update_of_ne hr]
      exact hI r
  cases hs with
  | matched | events | emitted | delivered | supervised | participants => exact hI r
  | domain r₁ => exact hact r₁ (.evaluateDomain (cfg.view e)) _ fun s hs => ⟨_, rfl, by rw [hs]⟩
  | evaluated r₁ now =>
    refine hact r₁ (.evaluate (cfg.view e) now) _ fun s hs => ?_
    rw [RuleRun.step, hs, final]
    rcases Rule.evaluate (cfg.rule r₁) (cfg.view e) now (e.rules r₁) with ⟨_ | _, _⟩ | _ <;>
      exact ⟨_, rfl, rfl⟩
  | switched r₁ flag => exact hact r₁ (.enable flag) _ fun s hs => ⟨_, rfl, by rw [hs]⟩
  | cleared cs rs =>
    obtain ⟨s, hreach, hrule⟩ := hI r
    by_cases hr : rs r = true
    · exact ⟨_, hreach.next (a := .reset) trivial rfl, by simp [Engine.clear, hr, hrule]⟩
    · exact ⟨s, hreach, by simp [Engine.clear, hr, hrule]⟩

end MfExtensions
