import MfExtensions.Proofs.Registration
import MfExtensions.Proofs.Reporting

/-!
# The updates of is_syncd

`ma_func_is_syncd::evaluate` makes an update of its table, out of the source and the time of its
condition's last message. The updates of an evaluation are those of the terms it visits, the updates
of a call those of the evaluations in it, and the table is what they make of it (`Op.exec_sync`).
An evaluation comes to the term if what stands in front of the first `is_syncd` lets it
(`Rule.triedUpdates_of_error`).
-/

namespace MfExtensions

open Exec

/-- The source and the time that `is_syncd` puts into its table, if the first group is a number. -/
def Condition.syncPair (L : LexicalCast) (c : Condition) : Option (String × UInt64) :=
  match c.msgGroup 1 with
  | .error _ => none
  | .ok s => (L.toUInt64 s).map fun time => (c.lastSrc, time)

/-- An update of the table. -/
def SyncTable.update (x : SyncTable) (p : String × UInt64) : SyncTable :=
  (ExtFunc.syncStep p.1 p.2 x).1

/-- The condition of a term with the function object. -/
def syncOwner {C : Type} (obj : ℕ) (p : C × Option ExtFunc) : Option C :=
  match p.2 with
  | some (.isSyncd o) => if o = obj then some p.1 else none
  | _ => none

variable {C R : Type} [DecidableEq C] [LinearOrder R]

/-! ## The updates of an evaluation -/

section Terms

variable (V : View C) (obj : ℕ)

/-- The update a term makes of the table of `obj`. -/
def termUpdate (p : C × Option ExtFunc) : Option (String × UInt64) :=
  (syncOwner obj p).bind fun c => (V.conds c).syncPair V.lex

omit [DecidableEq C] in
theorem evaluate_isSyncd (c : Condition) (dom : CondDomain) (o : ℕ) (sync : ℕ → SyncTable) :
    final (ExtFunc.evaluate V c dom (.isSyncd o)) sync =
      match c.syncPair V.lex with
      | none => sync
      | some p => Function.update sync o ((sync o).update p) := by
  unfold Condition.syncPair
  rcases hs : c.msgGroup 1 with err | s
  · simp [ExtFunc.evaluate, final, bind_apply, hs]
  · cases htime : V.lex.toUInt64 s with
    | none => simp [ExtFunc.evaluate, final, bind_apply, hs, htime]
    | some time =>
      simp only [ExtFunc.evaluate, final, bind_apply, hs, htime, orThrow_ok, get_apply]
      rfl

theorem visit_sync (order : List C) (value domain : Domain) (s : EvalState)
    (p : C × Option ExtFunc) : (visit V order value domain s p).sync obj =
      (termUpdate V obj p).elim (s.sync obj) (s.sync obj).update := by
  obtain ⟨c, _ | f⟩ := p
  · rfl
  · cases f with
    | count type =>
      exact congrFun (moves_extFunc_evaluate V (V.conds c) _ (.count type) nofun s.sync) obj
    | countPercent type group =>
      exact congrFun
        (moves_extFunc_evaluate V (V.conds c) _ (.countPercent type group) nofun s.sync) obj
    | isSyncd o =>
      simp only [visit, termUpdate, syncOwner, evaluate_isSyncd]
      by_cases ho : o = obj
      · subst ho
        rw [if_pos rfl, Option.bind_some]
        cases (V.conds c).syncPair V.lex with
        | none => rfl
        | some p => exact Function.update_self _ _ _
      · rw [if_neg ho, Option.bind_none]
        cases (V.conds c).syncPair V.lex with
        | none => rfl
        | some p => exact Function.update_of_ne (Ne.symm ho) _ _

/-- The table after an evaluation. -/
theorem evaluateOr_sync (order : List C) (value domain : Domain)
    (e : List (List (BooleanCond C))) (s : EvalState) :
    (final (BooleanCond.evaluateOr V order value domain e) s).sync obj =
      ((BooleanCond.visitsOr V order value domain e s).filterMap (termUpdate V obj)).foldl
        SyncTable.update (s.sync obj) := by
  rw [evaluateOr_visits]
  generalize BooleanCond.visitsOr V order value domain e s = l
  induction l generalizing s with
  | nil => rfl
  | cons p l ih =>
    rw [List.foldl_cons, ih, visit_sync, List.filterMap_cons]
    cases termUpdate V obj p <;> rfl

end Terms

/-! ## The is_syncd an evaluation comes to first -/

section Front

variable (on : C → Bool) (term : C → ExtFunc → Rhv → Option Bool)

mutual

/-- Evaluate an expression of which the conditions' statuses and the values of some function terms
are told, up to the first function of another term. -/
def BooleanCond.front : BooleanCond C → Except (C × ExtFunc) Bool
  | .expr e => BooleanCond.frontOr e
  | .cond c => .ok (on c)
  | .func c f rhv =>
    match term c f rhv with
    | some b => .ok b
    | none => .error (c, f)

def BooleanCond.frontAnd : List (BooleanCond C) → Except (C × ExtFunc) Bool
  | [] => .ok true
  | b :: bs =>
    match b.front with
    | .ok true => BooleanCond.frontAnd bs
    | x => x

def BooleanCond.frontOr : List (List (BooleanCond C)) → Except (C × ExtFunc) Bool
  | [] => .ok false
  | a :: as =>
    match BooleanCond.frontAnd a with
    | .ok false => BooleanCond.frontOr as
    | x => x

end

end Front

section Tells

variable (V : View C) (order : List C) (value domain : Domain)

abbrev assignedStatus (c : C) : Bool := (V.conds c).hitmap.status (value.at (order.idxOf c))

/-- The value of a term whose function has no state, if it does not throw. -/
def statelessTerm (c : C) (f : ExtFunc) (rhv : Rhv) : Option Bool :=
  match f with
  | .isSyncd _ => none
  | f => do
    let v ← value? (f.evaluate V (V.conds c) (domain.at (order.idxOf c))) fun _ => {}
    (rhv.test v).toOption

/-- What is told in front of the first `is_syncd`: either the value, none being asked, or a term
that is visited. -/
def Tells (x : EStateM Err EvalState Bool) (s : EvalState) (visits : List (C × Option ExtFunc)) :
    Except (C × ExtFunc) Bool → Prop
  | .ok b => value? x s = some b ∧ ∀ p ∈ visits, ∀ o, p.2 ≠ some (.isSyncd o)
  | .error p => (p.1, some p.2) ∈ visits

omit [DecidableEq C] in
theorem value?_stateless (c : Condition) (d : CondDomain) (sync sync' : ℕ → SyncTable) :
    ∀ f : ExtFunc, (∀ o, f ≠ .isSyncd o) →
      value? (f.evaluate V c d) sync = value? (f.evaluate V c d) sync'
  | .count type, _ => by
    simp only [ExtFunc.evaluate, value?, bind_apply]
    cases c.hitmap.alarmCount d type <;> rfl
  | .countPercent type group, _ => by
    simp only [ExtFunc.evaluate, value?, bind_apply]
    cases c.hitmap.alarmCount d type with
    | error e => rfl
    | ok n => cases V.participants.groupCount group <;> rfl
  | .isSyncd o, h => absurd rfl (h o)

theorem statelessTerm_some {c : C} {f : ExtFunc} {rhv : Rhv} {b : Bool}
    (h : statelessTerm V order domain c f rhv = some b) :
    (∀ o, f ≠ .isSyncd o) ∧ ∀ s,
      value? ((BooleanCond.func c f rhv).evaluate V order value domain) s = some b := by
  have hf : ∀ o, f ≠ .isSyncd o := by
    rintro o rfl
    exact nomatch h
  refine ⟨hf, fun s => ?_⟩
  obtain ⟨v, hv, hb⟩ : ∃ v, value? (f.evaluate V (V.conds c) (domain.at (order.idxOf c)))
      (fun _ => {}) = some v ∧ (rhv.test v).toOption = some b := by
    cases f with
    | isSyncd o => exact absurd rfl (hf o)
    | count | countPercent => exact Option.bind_eq_some_iff.1 h
  rw [value?_stateless V _ _ _ s.sync f hf] at hv
  have htest : rhv.test v = .ok b := by
    cases hr : rhv.test v with
    | error e => rw [hr] at hb; exact nomatch hb
    | ok b' => rw [hr] at hb; exact congrArg _ (Option.some_inj.1 hb)
  simp [BooleanCond.evaluate, value?, bind_apply, zoom, ok_of_value? hv, htest]

mutual

theorem front_tells : ∀ (b : BooleanCond C) (s : EvalState),
    Tells (b.evaluate V order value domain) s (b.visits V order value domain s)
      (b.front (assignedStatus V order value) (statelessTerm V order domain))
  | .expr e, s => frontOr_tells e s
  | .cond c, s => ⟨rfl, by simp [BooleanCond.visits]⟩
  | .func c f rhv, s => by
    rw [BooleanCond.front]
    cases hterm : statelessTerm V order domain c f rhv with
    | none => exact List.mem_singleton_self _
    | some b =>
      obtain ⟨hf, hb⟩ := statelessTerm_some V order value domain hterm
      refine ⟨hb s, fun p hp o => ?_⟩
      rw [List.mem_singleton.1 hp]
      exact fun h => hf o (Option.some_inj.1 h)

theorem frontAnd_tells : ∀ (bs : List (BooleanCond C)) (s : EvalState),
    Tells (BooleanCond.evaluateAnd V order value domain bs) s
      (BooleanCond.visitsAnd V order value domain bs s)
      (BooleanCond.frontAnd (assignedStatus V order value) (statelessTerm V order domain) bs)
  | [], s => ⟨rfl, by simp [BooleanCond.visitsAnd]⟩
  | b :: bs, s => by
    have hb := front_tells b s
    rw [BooleanCond.frontAnd, BooleanCond.visitsAnd, BooleanCond.evaluateAnd]
    rcases hfront : b.front (assignedStatus V order value) (statelessTerm V order domain) with
      p | _ | _ <;> rw [hfront] at hb
    · exact List.mem_append_left _ hb
    · have hx := ok_of_value? hb.1
      refine ⟨value?_bind_ok hx, fun p hp => ?_⟩
      simp only [hb.1, Option.some.injEq, Bool.false_eq_true, if_false, List.append_nil] at hp
      exact hb.2 p hp
    · have hx := ok_of_value? hb.1
      have hbs := frontAnd_tells bs (final (b.evaluate V order value domain) s)
      simp only [hb.1, if_true]
      revert hbs
      cases BooleanCond.frontAnd (assignedStatus V order value) (statelessTerm V order domain)
        bs with
      | error p => exact fun hbs => List.mem_append_right _ hbs
      | ok v =>
        rintro ⟨hv, hbs⟩
        refine ⟨(value?_bind_ok hx).trans hv, fun p hp => ?_⟩
        exact (List.mem_append.1 hp).elim (hb.2 p) (hbs p)

theorem frontOr_tells : ∀ (e : List (List (BooleanCond C))) (s : EvalState),
    Tells (BooleanCond.evaluateOr V order value domain e) s
      (BooleanCond.visitsOr V order value domain e s)
      (BooleanCond.frontOr (assignedStatus V order value) (statelessTerm V order domain) e)
  | [], s => ⟨rfl, by simp [BooleanCond.visitsOr]⟩
  | a :: as, s => by
    have ha := frontAnd_tells a s
    rw [BooleanCond.frontOr, BooleanCond.visitsOr, BooleanCond.evaluateOr]
    rcases hfront : BooleanCond.frontAnd (assignedStatus V order value)
      (statelessTerm V order domain) a with p | _ | _ <;> rw [hfront] at ha
    · exact List.mem_append_left _ ha
    · have hx := ok_of_value? ha.1
      have has := frontOr_tells as (final (BooleanCond.evaluateAnd V order value domain a) s)
      simp only [ha.1, if_true]
      revert has
      cases BooleanCond.frontOr (assignedStatus V order value) (statelessTerm V order domain)
        as with
      | error p => exact fun has => List.mem_append_right _ has
      | ok v =>
        rintro ⟨hv, has⟩
        refine ⟨(value?_bind_ok hx).trans hv, fun p hp => ?_⟩
        exact (List.mem_append.1 hp).elim (ha.2 p) (has p)
    · have hx := ok_of_value? ha.1
      refine ⟨value?_bind_ok hx, fun p hp => ?_⟩
      simp only [ha.1, Option.some.injEq, Bool.true_eq_false, if_false, List.append_nil] at hp
      exact ha.2 p hp

end

end Tells

/-! ## The updates of a rule -/

namespace Rule

variable (k : RuleConfig C) (V : View C) (now : ℤ) (obj : ℕ)

/-- The updates of an assignment. -/
def triedUpdates (p : Domain × Domain) (r : Rule C) : List (String × UInt64) :=
  (BooleanCond.visitsOr V k.conditions p.2 p.1 k.booleanExpr
    ⟨domainCtorNullOf p.1.length, r.sync⟩).filterMap (termUpdate V obj)

/-- The updates while assignments are tried, up to the first one that raises an alarm. -/
def updatesOf : List (Domain × Domain) → Rule C → List (String × UInt64)
  | [], _ => []
  | p :: ps, r =>
    let x := booleanEvaluate k V now p.2 p.1
    triedUpdates k V obj p r ++ if value? x r = some false then updatesOf ps (final x r) else []

/-- The updates of `evaluate`. -/
def updates (r : Rule C) : List (String × UInt64) :=
  if r.enabled then updatesOf k V now obj (tries k V r) r else []

theorem booleanEvaluate_updates (p : Domain × Domain) (r : Rule C) :
    (final (booleanEvaluate k V now p.2 p.1) r).sync obj =
      (triedUpdates k V obj p r).foldl SyncTable.update (r.sync obj) := by
  have h := evaluateOr_sync V obj k.conditions p.2 p.1 k.booleanExpr
    ⟨domainCtorNullOf p.1.length, r.sync⟩
  rw [triedUpdates, ← h]
  simp only [final, booleanEvaluate_apply, BooleanExpr.evaluate]
  rcases BooleanCond.evaluateOr V k.conditions p.2 p.1 k.booleanExpr
    ⟨domainCtorNullOf p.1.length, r.sync⟩ with ⟨_ | _, s⟩ | ⟨e, s⟩
  · rfl
  · dsimp only
    rcases r.alarms.lookup s.alarm with _ | lt
    · rfl
    · dsimp only
      split_ifs <;> rfl
  · rfl

theorem anyM_updates : ∀ (ps : List (Domain × Domain)) (r : Rule C),
    (final (ps.anyM fun p => booleanEvaluate k V now p.2 p.1) r).sync obj =
      (updatesOf k V now obj ps r).foldl SyncTable.update (r.sync obj)
  | [], _ => rfl
  | p :: ps, r => by
    have hp := booleanEvaluate_updates k V now obj p r
    rw [updatesOf, List.foldl_append, ← hp, List.anyM_cons]
    rcases hx : booleanEvaluate k V now p.2 p.1 r with ⟨_ | _, r'⟩ | ⟨e, r'⟩
    · rw [final_bind_ok hx, value?_of_ok hx, final_ok hx]
      exact anyM_updates ps r'
    · rw [final_bind_ok hx, value?_of_ok hx, final_ok hx]
      rfl
    · rw [final_bind_error hx, final_error hx]
      simp [value?_of_error hx]

/-- The table after `evaluate`. -/
theorem evaluate_updates {r : Rule C} (hnull : r.NoNull) :
    (final (evaluate k V now) r).sync obj =
      (updates k V now obj r).foldl SyncTable.update (r.sync obj) := by
  unfold updates
  by_cases hen : r.enabled = true
  · rw [if_pos hen, ← anyM_updates, final, evaluate_eq k V now hen hnull]
    rfl
  · rw [Bool.not_eq_true] at hen
    simp [evaluate, final, bind_apply, hen]

/-- What is told in front of the first `is_syncd` for a domain and an assignment of its cells. -/
def front (p : Domain × Domain) : Except (C × ExtFunc) Bool :=
  BooleanCond.frontOr (assignedStatus V k.conditions p.2) (statelessTerm V k.conditions p.1)
    k.booleanExpr

/-- The conditions whose terms have the object. The parser makes an object for each term. -/
def syncOwners : List C := k.booleanExpr.leaves.filterMap (syncOwner obj)

variable {k V obj}

theorem triedUpdates_of_ok {p : Domain × Domain} {b : Bool} (h : front k V p = .ok b)
    (r : Rule C) : triedUpdates k V obj p r = [] := by
  have htells := frontOr_tells V k.conditions p.2 p.1 k.booleanExpr
    ⟨domainCtorNullOf p.1.length, r.sync⟩
  rw [← front, h] at htells
  refine List.filterMap_eq_nil_iff.2 fun q hq => ?_
  simp [termUpdate, syncOwner, htells.2 q hq]

/-- An evaluation that comes to the term makes its update and no other. -/
theorem triedUpdates_of_error {p : Domain × Domain} {c : C}
    (h : front k V p = .error (c, .isSyncd obj)) (hown : syncOwners k obj = [c]) (r : Rule C) :
    triedUpdates k V obj p r = ((V.conds c).syncPair V.lex).toList := by
  let vs := BooleanCond.visitsOr V k.conditions p.2 p.1 k.booleanExpr
    ⟨domainCtorNullOf p.1.length, r.sync⟩
  have hmem : (c, some (ExtFunc.isSyncd obj)) ∈ vs := by
    have htells := frontOr_tells V k.conditions p.2 p.1 k.booleanExpr
      ⟨domainCtorNullOf p.1.length, r.sync⟩
    rwa [← front, h] at htells
  have hsub : (vs.filterMap (syncOwner obj)).Sublist [c] :=
    hown ▸ (visitsOr_sublist V k.conditions p.2 p.1 k.booleanExpr _).filterMap _
  have hc : c ∈ vs.filterMap (syncOwner obj) :=
    List.mem_filterMap.2 ⟨_, hmem, by simp [syncOwner]⟩
  have hvs : vs.filterMap (syncOwner obj) = [c] :=
    (List.sublist_singleton.1 hsub).resolve_left (List.ne_nil_of_mem hc)
  calc triedUpdates k V obj p r
      = (vs.filterMap (syncOwner obj)).filterMap fun c => (V.conds c).syncPair V.lex :=
        List.filterMap_filterMap.symm
    _ = ((V.conds c).syncPair V.lex).toList := by
        rw [hvs]
        cases hp : (V.conds c).syncPair V.lex <;> simp [hp]

theorem updatesOf_nil {ps : List (Domain × Domain)} (h : ∀ p ∈ ps, ∃ b, front k V p = .ok b) :
    ∀ r : Rule C, updatesOf k V now obj ps r = [] := by
  induction ps with
  | nil => exact fun _ => rfl
  | cons p ps ih =>
    intro r
    obtain ⟨⟨b, hb⟩, hps⟩ := List.forall_mem_cons.1 h
    simp [updatesOf, triedUpdates_of_ok hb, ih hps]

theorem updates_nil {r : Rule C} (h : ∀ p ∈ tries k V r, ∃ b, front k V p = .ok b) :
    updates k V now obj r = [] := by
  unfold updates
  rw [updatesOf_nil now h, ite_self]

theorem updates_single {r : Rule C} (hen : r.enabled = true) {p : Domain × Domain} {c : C}
    (htries : tries k V r = [p]) (hfront : front k V p = .error (c, .isSyncd obj))
    (hown : syncOwners k obj = [c]) :
    updates k V now obj r = ((V.conds c).syncPair V.lex).toList := by
  simp only [updates, hen, if_true, htries, updatesOf, ite_self, List.append_nil]
  exact triedUpdates_of_error hfront hown r

end Rule

/-! ## The updates of a call -/

namespace Engine

variable (cfg : Config C R) (now : ℤ) (r : R) (obj : ℕ)

/-- The updates that evaluating rules makes of a table of the rule `r`. -/
def updatesOf : List R → Engine C R → List (String × UInt64)
  | [], _ => []
  | r' :: rs, e =>
    let x := evaluateRule cfg now r'
    (if r' = r then Rule.updates (cfg.rule r) (cfg.view e) now obj (e.rules r) else []) ++
      if (value? x e).isSome then updatesOf rs (final x e) else []

omit [LinearOrder R] in
theorem clear_sync (cs : C → Bool) (rs : R → Bool) (e : Engine C R) :
    ((clear cfg cs rs e).rules r).sync = (e.rules r).sync := by
  simp only [clear]
  split_ifs
  · exact BooleanExpr.reset_eq _ _
  · rfl

variable {cfg now} {r' : R} {e : Engine C R}

/-- Once it is evaluated, reporting and resetting a rule touches no table. -/
theorem evaluateRule_sync : ((final (evaluateRule cfg now r') e).rules r).sync =
    if r' = r then (final (Rule.evaluate (cfg.rule r) (cfg.view e) now) (e.rules r)).sync
    else (e.rules r).sync := by
  refine (final_evaluateRule cfg (Pre.frame fun e : Engine C R => (e.rules r).sync) now r'
    (fun o => moves_modify fun _ => rfl) (fun e => ?_) e).trans ?_
  · rw [final_resetRuleOf]
    exact clear_sync cfg r _ _ e
  · rw [final_onRule]
    split_ifs with hr
    · subst hr
      simp
    · simp only [Function.update_of_ne (Ne.symm hr)]

theorem passed_evaluateRule (h : Passed cfg e) :
    Passed cfg (final (evaluateRule cfg now r') e) :=
  evaluateRule_keeps (I := Passed cfg)
    (fun e h => h.trans (raiseAlarm_steps cfg Engine.anyReset now r' e))
    (fun _ _ h => h.tail (.emitted _)) (fun _ _ _ hok h => h.tail (.cleared _ _ hok))
    (fun _ _ => trivial) h

theorem evaluateRules_updates : ∀ (rs : List R) {e : Engine C R}, Passed cfg e →
    ((final (evaluateRules cfg now rs) e).rules r).sync obj =
      (updatesOf cfg now r obj rs e).foldl SyncTable.update ((e.rules r).sync obj)
  | [], _, _ => rfl
  | r' :: rs, e, h => by
    have hhead : ((final (evaluateRule cfg now r') e).rules r).sync obj =
        (if r' = r then Rule.updates (cfg.rule r) (cfg.view e) now obj (e.rules r) else []).foldl
          SyncTable.update ((e.rules r).sync obj) := by
      rw [evaluateRule_sync]
      split_ifs
      · exact Rule.evaluate_updates _ _ _ _ (h.wf.rules r).noNull
      · rfl
    rw [updatesOf, List.foldl_append, ← hhead, evaluateRules]
    rcases hx : evaluateRule cfg now r' e with ⟨_, e'⟩ | ⟨err, e'⟩
    · rw [final_bind_ok hx, value?_of_ok hx, final_ok hx]
      exact evaluateRules_updates rs (final_ok hx ▸ passed_evaluateRule h)
    · rw [final_bind_error hx, final_error hx]
      simp [value?_of_error hx]

/-- Without error handling a pass evaluates the rule in the state it starts from. -/
theorem updatesOf_eq {e' : Engine C R} : ∀ {rs : List R} {e : Engine C R}, rs.Nodup →
    e.EHS = false → evaluateRules cfg now rs e = .ok () e' →
    updatesOf cfg now r obj rs e =
      if r ∈ rs then Rule.updates (cfg.rule r) (cfg.view e) now obj (e.rules r) else []
  | [], _, _, _, _ => by simp [updatesOf]
  | r' :: rs, e, hnd, hEHS, h => by
    obtain ⟨hr', hnd⟩ := List.nodup_cons.1 hnd
    obtain ⟨⟨⟩, e₁, h₁, h⟩ := bind_ok.1 h
    obtain ⟨fired, rl, -, hrules, hconds, hE, hpart⟩ := evaluateRule_ok cfg hEHS h₁
    have ih := updatesOf_eq hnd (hE.trans hEHS) h
    have hview : cfg.view e₁ = cfg.view e := by
      unfold Config.view
      rw [hconds, hpart]
    rw [updatesOf, value?_of_ok h₁, final_ok h₁, Option.isSome_some, if_pos rfl, ih, hview]
    by_cases heq : r' = r
    · subst heq
      simp [hr']
    · simp [heq, hrules, Ne.symm heq]

/-! ### A feed -/

/-- A feed up to the evaluation of the rules. -/
def prepare (cfg : Config C R) (msg : Msg) : EStateM Err (Engine C R) (Changed C) := do
  let l ← matchConds cfg msg cfg.cmap {}
  evaluateRulesDomain cfg (notifyDomain cfg l)
  return l

variable {msg : Msg}

theorem feed_eq : feed cfg msg now =
    prepare cfg msg >>= fun l => evaluateRules cfg now (notifyStatus cfg l) := by
  simp only [feed, prepare, bind_assoc, pure_bind]

theorem evaluateRulesDomain_sync (rs : List R) :
    Moves (fun e e' => (e'.rules r).sync = (e.rules r).sync) (evaluateRulesDomain cfg rs) := by
  have hrule := Pre.frame fun x : Rule C => x.sync
  refine moves_evaluateRulesDomain cfg (Pre.frame fun e : Engine C R => (e.rules r).sync) rs
    fun r' _ e => ?_
  have heval : Moves (fun x x' : Rule C => x'.sync = x.sync)
      (Rule.evaluateDomain (cfg.rule r') (cfg.view e)) :=
    moves_bind hrule (moves_modify fun _ => rfl) fun _ =>
      moves_bind hrule (moves_orThrow hrule _) fun _ => moves_modify fun _ => rfl
  rw [final_onRule]
  exact update_frame (heval _) r

theorem moves_prepare {P : Engine C R → Engine C R → Prop} (hP : Pre P)
    (hmatch : Moves P (matchConds cfg msg cfg.cmap {}))
    (hdomains : ∀ l, Moves P (evaluateRulesDomain cfg (notifyDomain cfg l))) :
    Moves P (prepare cfg msg) :=
  moves_bind hP hmatch fun l => moves_bind hP (hdomains l) fun _ => moves_pure hP _

variable (cfg msg) in
theorem prepare_sync : Moves (fun e e' => (e'.rules r).sync = (e.rules r).sync)
    (prepare cfg msg) := by
  refine moves_prepare (Pre.frame fun e : Engine C R => (e.rules r).sync) (fun e => ?_)
    fun l => evaluateRulesDomain_sync r _
  rw [(matchConds_rulesKept cfg msg cfg.cmap {} e).1]

theorem prepare_passed : Moves (fun e e' => Passed cfg e → Passed cfg e') (prepare cfg msg) :=
  moves_prepare (Pre.keeps _) (fun e h => h.trans (matchConds_steps cfg anyReset msg cfg.cmap {} e))
    fun l e h => h.trans (evaluateRulesDomain_steps cfg anyReset l e)

end Engine

namespace Op

variable (cfg : Config C R) (r : R) (obj : ℕ)

/-- The updates that a call makes of a table of the rule `r`. -/
def updates : Op → Engine C R → List (String × UInt64)
  | .feed msg now, e =>
    let x := Engine.prepare cfg msg
    match value? x e with
    | none => []
    | some l => Engine.updatesOf cfg now r obj (Engine.notifyStatus cfg l) (final x e)
  | .eventWorker now tod, e =>
    let due := Engine.deliverDue cfg now e
    Engine.updatesOf cfg tod r obj (Engine.notifyStatus cfg { status := due.2 }) due.1
  | _, _ => []

variable {cfg r obj} {e : Engine C R}

/-- The table after a call. -/
theorem exec_sync (h : Passed cfg e) (op : Op) :
    ((final (op.exec cfg) e).rules r).sync obj =
      (op.updates cfg r obj e).foldl SyncTable.update ((e.rules r).sync obj) := by
  have hframe := Pre.frame fun e : Engine C R => (e.rules r).sync
  have hreset {op : Op} (hop : op.IsReset) :
      ((final (op.exec cfg) e).rules r).sync obj = (e.rules r).sync obj := by
    rw [Engine.final_reset_exec cfg e hop]
    split
    · rfl
    · rw [Engine.clear_sync]
  cases op with
  | feed msg now =>
    have hsync := Engine.prepare_sync cfg r msg e
    rw [Op.exec, Engine.feed_eq, updates]
    rcases hx : Engine.prepare cfg msg e with ⟨l, e'⟩ | ⟨err, e'⟩
    · rw [final_ok hx] at hsync
      rw [final_bind_ok hx, value?_of_ok hx, final_ok hx, ← hsync]
      exact Engine.evaluateRules_updates r obj _ (Engine.prepare_passed.of_ok hx h)
    · rw [final_error hx] at hsync
      rw [final_bind_error hx, value?_of_error hx, hsync]
      rfl
  | eventWorker now tod =>
    exact Engine.evaluateRules_updates r obj _ (h.trans (Engine.deliverDue_steps now e))
  | enableRule name flag =>
    refine congrFun (Engine.moves_enableRule cfg hframe name (fun r' e => ?_) e) obj
    refine update_frame (f := Rule.sync) ?_ r
    rfl
  | enableEHS flag => rfl
  | participants op =>
    exact congrFun (Engine.moves_onParticipants hframe op (fun _ _ => rfl) e) obj
  | resetRule | resetRules | resetCond | resetConds | reset =>
    exact hreset trivial

end Op

end MfExtensions
