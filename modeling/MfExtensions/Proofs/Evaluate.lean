import MfExtensions.Proofs.Domain
import MfExtensions.Proofs.RuleConfig

/-!
# One evaluation of a rule

Evaluating a rule walks through the assignments of cells to its conditions (`evaluate_eq`) and
stops at the first that raises an alarm. Without `is_syncd`, an assignment that raises none changes
nothing (`quiet_booleanEvaluate`), so every assignment is judged in the state the evaluation
starts from: it raises one alarm if an assignment satisfies the expression with a key that is not
recorded yet, and none otherwise.
-/

namespace MfExtensions

open Exec

variable {C : Type}

/-! ## Expressions without `is_syncd` -/

/-- No function of the expression keeps a state of its own. -/
def BooleanExpr.Stateless (e : BooleanExpr C) : Prop :=
  ∀ p ∈ e.leaves, ∀ obj, p.2 ≠ some (.isSyncd obj)

theorem moves_extFunc_evaluate (V : View C) (c : Condition) (dom : CondDomain) :
    ∀ f : ExtFunc, (∀ obj, f ≠ .isSyncd obj) → Moves (fun s s' => s' = s) (f.evaluate V c dom)
  | .count _, _ => moves_bind (Pre.frame id) (moves_orThrow (Pre.frame id) _)
      fun _ => moves_pure (Pre.frame id) _
  | .countPercent _ _, _ => moves_bind (Pre.frame id) (moves_orThrow (Pre.frame id) _)
      fun _ => moves_bind (Pre.frame id) (moves_orThrow (Pre.frame id) _)
      fun _ => moves_pure (Pre.frame id) _
  | .isSyncd obj, h => absurd rfl (h obj)

section Sync

variable [DecidableEq C] (V : View C) (order : List C) (value domain : Domain)

mutual

theorem moves_sync : ∀ b : BooleanCond C, (∀ p ∈ b.leaves, ∀ obj, p.2 ≠ some (.isSyncd obj)) →
    Moves (fun s s' => s'.sync = s.sync) (b.evaluate V order value domain)
  | .expr e, h => moves_syncOr e h
  | .cond c, _ => by
    have hP : Pre fun s s' : EvalState => s'.sync = s.sync := Pre.frame EvalState.sync
    refine moves_bind hP (moves_modify fun s => ?_) fun _ => moves_pure hP _
    split_ifs <;> rfl
  | .func c f rhv, h => by
    have hP : Pre fun s s' : EvalState => s'.sync = s.sync := Pre.frame EvalState.sync
    refine moves_bind hP (moves_modify fun s => rfl) fun _ => ?_
    refine moves_bind hP (moves_zoom (moves_extFunc_evaluate V _ _ f fun obj hf => ?_)
      fun s t ht => ht) fun v => moves_orThrow hP _
    exact h (c, some f) (by simp [BooleanCond.leaves]) obj (by rw [hf])

theorem moves_syncAnd : ∀ bs : List (BooleanCond C),
    (∀ p ∈ BooleanCond.leavesAnd bs, ∀ obj, p.2 ≠ some (.isSyncd obj)) →
    Moves (fun s s' => s'.sync = s.sync) (BooleanCond.evaluateAnd V order value domain bs)
  | [], _ => moves_pure (Pre.frame EvalState.sync) _
  | b :: bs, h => by
    simp only [BooleanCond.leavesAnd, List.mem_append] at h
    refine moves_bind (Pre.frame EvalState.sync) (moves_sync b fun p hp => h p (.inl hp))
      fun r => ?_
    cases r with
    | true => exact moves_syncAnd bs fun p hp => h p (.inr hp)
    | false => exact moves_pure (Pre.frame EvalState.sync) _

theorem moves_syncOr : ∀ e : List (List (BooleanCond C)),
    (∀ p ∈ BooleanCond.leavesOr e, ∀ obj, p.2 ≠ some (.isSyncd obj)) →
    Moves (fun s s' => s'.sync = s.sync) (BooleanCond.evaluateOr V order value domain e)
  | [], _ => moves_pure (Pre.frame EvalState.sync) _
  | a :: as, h => by
    simp only [BooleanCond.leavesOr, List.mem_append] at h
    refine moves_bind (Pre.frame EvalState.sync) (moves_syncAnd a fun p hp => h p (.inl hp))
      fun r => ?_
    cases r with
    | true => exact moves_pure (Pre.frame EvalState.sync) _
    | false => exact moves_syncOr as fun p hp => h p (.inr hp)

end

end Sync

namespace Rule

theorem evaluateDomain_apply [DecidableEq C] (k : RuleConfig C) (V : View C) {ds : Domains}
    (h : k.domainExpr.evaluate V.conds k.conditions [] = .ok ds) (r : Rule C) :
    evaluateDomain k V r = .ok () { r with domains := ds } := by
  simp only [evaluateDomain, bind_apply, modify_apply, h, orThrow_ok]

/-! ## The assignments tried -/

section Assignments

variable (V : View C)

/-- The cells a condition is assigned from its domain, one by one. -/
def cells (p : (C × Bool) × CondDomain) : List CondDomain :=
  if p.1.2 then
    match (V.conds p.1.1).hitmap.condRange p.2 with
    | .ok ranges => cellsOf ranges
    | .error _ => []
  else [condDomainCtorNull]

/-- The assignments of cells to conditions, in the order of `recursive_evaluate`. -/
def assignments : List ((C × Bool) × CondDomain) → List Domain
  | [] => [[]]
  | p :: rest => (cells V p).flatMap fun v => (assignments rest).map (v :: ·)

theorem mem_assignments : ∀ {l : List ((C × Bool) × CondDomain)} {value : Domain},
    value ∈ assignments V l ↔ List.Forall₂ (fun p v => v ∈ cells V p) l value
  | [], value => by simp [assignments]
  | p :: rest, value => by
    simp only [assignments, List.mem_flatMap, List.mem_map, List.forall₂_cons_left_iff,
      mem_assignments]
    constructor
    · rintro ⟨v, hv, vs, hvs, rfl⟩
      exact ⟨v, vs, hv, hvs, rfl⟩
    · rintro ⟨v, vs, hv, hvs, rfl⟩
      exact ⟨v, hv, vs, hvs, rfl⟩

theorem mem_indices {r : CondRange} {i : ℤ} : i ∈ Hitmap.indices r ↔ r.1 ≤ i ∧ i ≤ r.2 := by
  simp only [Hitmap.indices, List.mem_map, List.mem_range]
  constructor
  · rintro ⟨n, hn, rfl⟩
    omega
  · rintro ⟨h₁, h₂⟩
    exact ⟨(i - r.1).toNat, by omega, by omega⟩

theorem mem_cellsOf {r : CondRange × CondRange} {v : CondDomain} :
    v ∈ cellsOf r ↔ (r.1.1 ≤ v.1 ∧ v.1 ≤ r.1.2) ∧ r.2.1 ≤ v.2 ∧ v.2 ≤ r.2.2 := by
  simp only [cellsOf, List.mem_flatMap, List.mem_map, mem_indices]
  constructor
  · rintro ⟨s, hs, t, ht, rfl⟩
    exact ⟨hs, ht⟩
  · rintro ⟨hs, ht⟩
    exact ⟨v.1, hs, v.2, ht, rfl⟩

/-- A primitive condition is assigned the cells of its domain: every index for `D_ANY`. -/
theorem mem_cells (V : View C) (c : C) {d : CondDomain} (hd : condDomainIsNull d = false)
    {v : CondDomain} : v ∈ cells V ((c, true), d) ↔
      (if d.1 = dAny then 0 ≤ v.1 ∧ v.1 < (V.conds c).hitmap.srcIdx.size else v.1 = d.1) ∧
      (if d.2 = dAny then 0 ≤ v.2 ∧ v.2 < (V.conds c).hitmap.tgtIdx.size else v.2 = d.2) := by
  simp only [cells, Hitmap.condRange, hd, if_true, Bool.false_eq_true, if_false, mem_cellsOf]
  split_ifs <;> simp only <;> omega

end Assignments

/-- No domain of the rule has a null entry. -/
def NoNull (r : Rule C) : Prop := ∀ d ∈ r.domains, domainIsNull d = false

variable [DecidableEq C] (k : RuleConfig C) (V : View C)

/-- An assignment gives each condition a cell of its entry. -/
theorem assigned {d value : Domain} (hd : d.length = k.conditions.length)
    (hv : value ∈ assignments V (k.booleanExpr.registered.zip d)) {c : C}
    (hc : c ∈ k.conditions) : ∃ primitive, (c, primitive) ∈ k.booleanExpr.registered ∧
      value.at (k.conditions.idxOf c) ∈ cells V ((c, primitive), d.at (k.conditions.idxOf c)) := by
  have hi := List.idxOf_lt_length_of_mem hc
  have hr : k.conditions.idxOf c < k.booleanExpr.registered.length := k.conditions_length ▸ hi
  have hreg : (k.booleanExpr.registered[k.conditions.idxOf c]).1 = c := by
    have := List.getElem_idxOf hi
    simpa only [RuleConfig.conditions, List.getElem_map] using this
  have heq : k.booleanExpr.registered[k.conditions.idxOf c] =
      (c, (k.booleanExpr.registered[k.conditions.idxOf c]).2) := Prod.ext hreg rfl
  rw [mem_assignments, List.forall₂_iff_get] at hv
  have hz : k.conditions.idxOf c < (k.booleanExpr.registered.zip d).length := by
    rw [List.length_zip, hd, ← k.conditions_length, Nat.min_self]
    exact hi
  have hcell := hv.2 _ hz (hv.1 ▸ hz)
  rw [List.get_eq_getElem, List.get_eq_getElem, List.getElem_zip, heq] at hcell
  refine ⟨_, heq ▸ List.getElem_mem hr, ?_⟩
  have hvalue := Domain.at_eq_getElem (d := value) (hv.1 ▸ hz)
  have hdomain := Domain.at_eq_getElem (d := d) (hd ▸ hi)
  rw [hvalue, hdomain]
  exact hcell

/-- The domains of a rule, each with the assignments of its cells. -/
def tries (r : Rule C) : List (Domain × Domain) :=
  r.domains.flatMap fun d => (assignments V (k.booleanExpr.registered.zip d)).map (d, ·)

theorem mem_tries {r : Rule C} {p : Domain × Domain} : p ∈ tries k V r ↔
    p.1 ∈ r.domains ∧ p.2 ∈ assignments V (k.booleanExpr.registered.zip p.1) := by
  simp only [tries, List.mem_flatMap, List.mem_map]
  constructor
  · rintro ⟨d, hd, value, hv, rfl⟩
    exact ⟨hd, hv⟩
  · rintro ⟨hd, hv⟩
    exact ⟨p.1, hd, p.2, hv, rfl⟩

theorem recursiveEvaluate_eq (now : ℤ) (domain : Domain) :
    ∀ (l : List ((C × Bool) × CondDomain)) (value : Domain),
      (∀ p ∈ l, condDomainIsNull p.2 = false) →
      recursiveEvaluate k V now domain l value =
        (assignments V l).anyM fun v => booleanEvaluate k V now (value ++ v) domain
  | [], value, _ => by
    funext s
    rw [assignments, anyM_cons_apply, List.append_nil, recursiveEvaluate]
    rcases booleanEvaluate k V now value domain s with ⟨_ | _, s'⟩ | ⟨e, s'⟩ <;> rfl
  | ((c, primitive), d) :: rest, value, h => by
    have hd : condDomainIsNull d = false := h _ List.mem_cons_self
    have ih : ∀ v, recursiveEvaluate k V now domain rest (value ++ [v]) =
        ((assignments V rest).map (v :: ·)).anyM fun w =>
          booleanEvaluate k V now (value ++ w) domain := by
      intro v
      rw [recursiveEvaluate_eq now domain rest _ fun p hp => h p (List.mem_cons_of_mem _ hp),
        anyM_map]
      simp only [List.append_assoc, List.singleton_append]
    rw [assignments, anyM_flatMap, ← anyM_congr fun v _ => ih v, recursiveEvaluate, hd]
    cases primitive with
    | true =>
      simp only [cells, if_true, Hitmap.condRange, hd]
      rfl
    | false => rfl

theorem evaluate_eq (now : ℤ) {r : Rule C} (hen : r.enabled = true) (hnull : r.NoNull) :
    evaluate k V now r = (tries k V r).anyM (fun p => booleanEvaluate k V now p.2 p.1) r := by
  have hd : ∀ d ∈ r.domains, (do
      if domainIsNull d then throw .assertion
      recursiveEvaluate k V now d (k.booleanExpr.registered.zip d) [] :
        EStateM Err (Rule C) Bool) =
      ((assignments V (k.booleanExpr.registered.zip d)).map (d, ·)).anyM
        fun p => booleanEvaluate k V now p.2 p.1 := by
    intro d hd
    rw [hnull d hd, anyM_map]
    refine recursiveEvaluate_eq k V now d _ [] fun p hp => ?_
    have hmem := (List.of_mem_zip hp).2
    have := hnull d hd
    simp only [domainIsNull, Bool.or_eq_false_iff, List.any_eq_false] at this
    simpa using this.2 _ hmem
  unfold evaluate tries
  rw [bind_apply, anyM_flatMap]
  simp only [get_apply, hen]
  exact congrFun (anyM_congr hd) r

/-! ## One assignment -/

/-- The key of the alarm a satisfying assignment stands for. -/
def fires (sync : ℕ → SyncTable) (p : Domain × Domain) : Option Domain :=
  match k.booleanExpr.evaluate V k.conditions p.2 p.1 ⟨domainCtorNullOf p.1.length, sync⟩ with
  | .ok true s => some s.alarm
  | _ => none

/-- The rule with one more alarm. -/
def raise (now : ℤ) (key : Domain) (r : Rule C) : Rule C :=
  { r with
    alarms := r.alarms ++ [(key, now)]
    lastAlarm := some key
    alarmCount := r.alarmCount + 1
    reports := r.reports ++ [(key, k.maps V.conds)] }

theorem booleanEvaluate_apply (now : ℤ) (value domain : Domain) (r : Rule C) :
    booleanEvaluate k V now value domain r =
      match k.booleanExpr.evaluate V k.conditions value domain
          ⟨domainCtorNullOf domain.length, r.sync⟩ with
      | .error e s => .error e { r with sync := s.sync }
      | .ok false s => .ok false { r with sync := s.sync }
      | .ok true s =>
        match r.alarms.lookup s.alarm with
        | none => .ok true (raise k V now s.alarm { r with sync := s.sync })
        | some lt =>
          if k.repeatAlarm && now - lt > k.holdoff then
            .ok true { r with
              sync := s.sync, lastAlarm := some s.alarm, alarmCount := r.alarmCount + 1 }
          else .ok false { r with sync := s.sync } := by
  simp only [booleanEvaluate, bind_apply, get_apply, zoom]
  rcases k.booleanExpr.evaluate V k.conditions value domain
    ⟨domainCtorNullOf domain.length, r.sync⟩ with ⟨_ | _, s⟩ | ⟨e, s⟩
  · rfl
  · simp only [pure_apply, if_true]
    cases r.alarms.lookup s.alarm with
    | none => rfl
    | some lt =>
      simp only
      split_ifs <;> rfl
  · rfl

theorem evaluate_sync (hs : k.booleanExpr.Stateless) {value domain : Domain} {s s' : EvalState}
    {b : Bool} (h : k.booleanExpr.evaluate V k.conditions value domain s = .ok b s') :
    s'.sync = s.sync := (moves_syncOr V k.conditions value domain _ hs).of_ok h

theorem fires_eq_some {sync : ℕ → SyncTable} {p : Domain × Domain} {key : Domain} :
    fires k V sync p = some key ↔
      ∃ s, k.booleanExpr.evaluate V k.conditions p.2 p.1 ⟨domainCtorNullOf p.1.length, sync⟩ =
        .ok true s ∧ s.alarm = key := by
  unfold fires
  rcases k.booleanExpr.evaluate V k.conditions p.2 p.1 ⟨domainCtorNullOf p.1.length, sync⟩ with
    ⟨_ | _, s⟩ | ⟨e, s⟩ <;> simp

theorem lookup_alarm_eq_none {alarms : List (Domain × ℤ)} {key : Domain} :
    alarms.lookup key = none ↔ key ∉ alarms.map Prod.fst := by
  rw [List.lookup_eq_none_iff, List.mem_map]
  constructor
  · rintro h ⟨e, he, rfl⟩
    simpa using h e he
  · intro h e he
    simp only [bne_iff_ne, ne_eq]
    rintro rfl
    exact h ⟨e, he, rfl⟩

section NoRepeat

variable {k V} (hs : k.booleanExpr.Stateless) (hrep : k.repeatAlarm = false)

include hs hrep

/-- An assignment that raises no alarm changes nothing, whenever it is tried. -/
theorem booleanEvaluate_false {now : ℤ} {p : Domain × Domain} {r r' : Rule C}
    (h : booleanEvaluate k V now p.2 p.1 r = .ok false r') :
    r' = r ∧ (∀ now', booleanEvaluate k V now' p.2 p.1 r = .ok false r) ∧
      ∀ key, fires k V r.sync p = some key → key ∈ r.alarms.map Prod.fst := by
  simp only [booleanEvaluate_apply, fires_eq_some] at h ⊢
  rcases he : k.booleanExpr.evaluate V k.conditions p.2 p.1
    ⟨domainCtorNullOf p.1.length, r.sync⟩ with ⟨_ | _, s⟩ | ⟨e, s⟩ <;> rw [he] at h
  · have hsync := evaluate_sync k V hs he
    simp only [EStateM.Result.ok.injEq, true_and] at h
    subst h
    simp [hsync]
  · have hsync := evaluate_sync k V hs he
    rcases hl : r.alarms.lookup s.alarm with _ | lt
    · simp [hl] at h
    · simp only [hl, hrep, Bool.false_and, Bool.false_eq_true, if_false, EStateM.Result.ok.injEq,
        true_and] at h
      subst h
      refine ⟨by simp [hsync], by simp [hl, hrep, hsync], fun key hkey => ?_⟩
      obtain ⟨s', hs', rfl⟩ := hkey
      obtain rfl : s = s' := by simpa using hs'
      by_contra hmem
      rw [lookup_alarm_eq_none.2 hmem] at hl
      simp at hl
  · simp at h

/-- An assignment that raises an alarm satisfies the expression with a key that was not
recorded. -/
theorem booleanEvaluate_true {now : ℤ} {p : Domain × Domain} {r r' : Rule C}
    (h : booleanEvaluate k V now p.2 p.1 r = .ok true r') :
    ∃ key, fires k V r.sync p = some key ∧ key ∉ r.alarms.map Prod.fst ∧
      r' = raise k V now key r := by
  simp only [booleanEvaluate_apply, fires_eq_some] at h ⊢
  rcases he : k.booleanExpr.evaluate V k.conditions p.2 p.1
    ⟨domainCtorNullOf p.1.length, r.sync⟩ with ⟨_ | _, s⟩ | ⟨e, s⟩ <;> rw [he] at h
  · simp at h
  · have hsync := evaluate_sync k V hs he
    rcases hl : r.alarms.lookup s.alarm with _ | lt
    · simp only [hl, EStateM.Result.ok.injEq, true_and] at h
      subst h
      exact ⟨s.alarm, ⟨s, rfl, rfl⟩, lookup_alarm_eq_none.1 hl, by simp [hsync]⟩
    · simp [hl, hrep] at h
  · simp at h

theorem quiet_booleanEvaluate (now : ℤ) (p : Domain × Domain) :
    Quiet (booleanEvaluate k V now p.2 p.1) :=
  fun h => (booleanEvaluate_false hs hrep h).1

end NoRepeat

/-- The key of an assignment that satisfies the expression. -/
def Satisfying (r : Rule C) (key : Domain) : Prop :=
  ∃ p ∈ tries k V r, fires k V r.sync p = some key

/-- Every assignment that satisfies the expression has its key among the alarms. -/
def Recorded (r : Rule C) : Prop := ∀ key, Satisfying k V r key → key ∈ r.alarms.map Prod.fst

section Evaluate

variable {k V} (hs : k.booleanExpr.Stateless) (hrep : k.repeatAlarm = false) {r r' : Rule C}
  (hen : r.enabled = true) (hnull : r.NoNull) {now : ℤ}

include hs hrep hen hnull

theorem evaluate_false (h : evaluate k V now r = .ok false r') :
    r' = r ∧ (∀ now', evaluate k V now' r = .ok false r) ∧ Recorded k V r := by
  rw [evaluate_eq k V now hen hnull] at h
  obtain ⟨rfl, hall⟩ := anyM_ok_false (fun p _ => quiet_booleanEvaluate hs hrep now p) h
  refine ⟨rfl, fun now' => ?_, fun key ⟨p, hp, hkey⟩ => ?_⟩
  · rw [evaluate_eq k V now' hen hnull]
    exact anyM_false fun p hp => (booleanEvaluate_false hs hrep (hall p hp)).2.1 now'
  · exact (booleanEvaluate_false hs hrep (hall p hp)).2.2 key hkey

theorem evaluate_true (h : evaluate k V now r = .ok true r') :
    ∃ key, Satisfying k V r key ∧ key ∉ r.alarms.map Prod.fst ∧ r' = raise k V now key r := by
  rw [evaluate_eq k V now hen hnull] at h
  obtain ⟨p, hp, hb⟩ := anyM_ok_true (fun p _ => quiet_booleanEvaluate hs hrep now p) h
  obtain ⟨key, hkey, hnew, hr⟩ := booleanEvaluate_true hs hrep hb
  exact ⟨key, ⟨p, hp, hkey⟩, hnew, hr⟩

end Evaluate

end Rule

end MfExtensions
