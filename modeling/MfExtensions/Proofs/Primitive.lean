import MfExtensions.Proofs.Alarms
import MfExtensions.Proofs.Reading

/-!
# Rules over primitive conditions

On an expression of primitive conditions the evaluation returns the reading of the expression and
puts the cells of the conditions it visits into the alarm (`evaluateOr_primitive`). A rule without
alarms then raises one if and only if every condition has a cell and the expression is true when
each condition is read as having a cell that is on (`evaluate_reads_iff`), and the key of an alarm
names only cells that are on if and only if the first alternative of every disjunction is on
(`key_names_on_iff`).
-/

namespace MfExtensions

open Exec

variable {C R : Type} [DecidableEq C] [LinearOrder R]

/-! ## Evaluating the expression -/

section Evaluate

variable (V : View C) (order : List C) (value domain : Domain)

/-- The cell assigned to a condition is on. -/
def cellOn (c : C) : Bool := (V.conds c).hitmap.status (value.at (order.idxOf c))

/-- Put the cell assigned to a condition into an alarm that has none for it. -/
def putCell (alarm : Domain) (c : C) : Domain :=
  if condDomainIsNull (alarm.at (order.idxOf c)) then
    alarm.set (order.idxOf c) (value.at (order.idxOf c))
  else alarm

def putCells (alarm : Domain) (cs : List C) : Domain := cs.foldl (putCell order value) alarm

mutual

theorem evaluate_primitive : ∀ b : BooleanCond C, (∀ p ∈ b.leaves, p.2 = none) →
    ∀ s : EvalState, b.evaluate V order value domain s =
      .ok (b.reading (cellOn V order value))
        { s with alarm := putCells order value s.alarm (b.visited (cellOn V order value)) }
  | .expr e, hp, s => evaluateOr_primitive e hp s
  | .cond c, _, s => by
    simp only [BooleanCond.evaluate, bind_apply, modify_apply, pure_apply, BooleanCond.visited,
      putCells, List.foldl_cons, List.foldl_nil, putCell]
    split_ifs <;> rfl
  | .func c f rhv, hp, _ => by simp [BooleanCond.leaves] at hp

theorem evaluateAnd_primitive : ∀ bs : List (BooleanCond C),
    (∀ p ∈ BooleanCond.leavesAnd bs, p.2 = none) →
    ∀ s : EvalState, BooleanCond.evaluateAnd V order value domain bs s =
      .ok (BooleanCond.readingAnd (cellOn V order value) bs)
        { s with
          alarm := putCells order value s.alarm
            (BooleanCond.visitedAnd (cellOn V order value) bs) }
  | [], _, _ => rfl
  | b :: bs, hp, s => by
    simp only [BooleanCond.leavesAnd, List.mem_append] at hp
    rw [BooleanCond.evaluateAnd, bind_apply, evaluate_primitive b fun p h => hp p (.inl h)]
    simp only [BooleanCond.readingAnd, BooleanCond.visitedAnd, putCells, List.foldl_append]
    cases b.reading (cellOn V order value) with
    | true =>
      simp only [if_true, Bool.true_and]
      exact evaluateAnd_primitive bs (fun p h => hp p (.inr h)) _
    | false => rfl

theorem evaluateOr_primitive : ∀ e : List (List (BooleanCond C)),
    (∀ p ∈ BooleanCond.leavesOr e, p.2 = none) →
    ∀ s : EvalState, BooleanCond.evaluateOr V order value domain e s =
      .ok (BooleanCond.readingOr (cellOn V order value) e)
        { s with
          alarm := putCells order value s.alarm
            (BooleanCond.visitedOr (cellOn V order value) e) }
  | [], _, _ => rfl
  | a :: as, hp, s => by
    simp only [BooleanCond.leavesOr, List.mem_append] at hp
    rw [BooleanCond.evaluateOr, bind_apply, evaluateAnd_primitive a fun p h => hp p (.inl h)]
    simp only [BooleanCond.readingOr, BooleanCond.visitedOr, putCells, List.foldl_append]
    cases BooleanCond.readingAnd (cellOn V order value) a with
    | true => rfl
    | false =>
      simp only [Bool.false_eq_true, if_false, Bool.false_or]
      exact evaluateOr_primitive as (fun p h => hp p (.inr h)) _

end

variable {order value}

omit V domain in
/-- What an alarm names after some conditions were visited. -/
theorem putCells_at : ∀ {cs : List C} {alarm : Domain}, (∀ c ∈ cs, c ∈ order) →
    alarm.length = order.length → ∀ c ∈ order,
      (putCells order value alarm cs).at (order.idxOf c) =
        if condDomainIsNull (alarm.at (order.idxOf c)) ∧ c ∈ cs then value.at (order.idxOf c)
        else alarm.at (order.idxOf c)
  | [], alarm, _, _, c, _ => by simp [putCells]
  | d :: cs, alarm, hmem, hlen, c, hc => by
    have hd : order.idxOf d < alarm.length :=
      hlen ▸ List.idxOf_lt_length_of_mem (hmem d List.mem_cons_self)
    have hlen' : (putCell order value alarm d).length = order.length := by
      unfold putCell
      split_ifs <;> simp [hlen]
    have hat : (putCell order value alarm d).at (order.idxOf c) =
        if condDomainIsNull (alarm.at (order.idxOf c)) ∧ c = d then value.at (order.idxOf c)
        else alarm.at (order.idxOf c) := by
      unfold putCell
      rcases eq_or_ne c d with rfl | hne
      · split_ifs with h₁ h₂ h₂
        · rw [Domain.at_set _ hd, if_pos rfl]
        · exact absurd ⟨h₁, rfl⟩ h₂
        · exact absurd h₂.1 h₁
        · rfl
      · rw [if_neg fun h : _ ∧ c = d => hne h.2]
        split_ifs
        · rw [Domain.at_set _ hd, if_neg fun h => hne ((List.idxOf_inj hc).1 h.symm)]
        · rfl
    have ih := putCells_at (fun c hc => hmem c (List.mem_cons_of_mem _ hc)) hlen' c hc
    rw [putCells, List.foldl_cons]
    refine ih.trans ?_
    simp only [hat, List.mem_cons]
    generalize alarm.at (order.idxOf c) = x
    generalize value.at (order.idxOf c) = y
    by_cases hx : condDomainIsNull x = true
    · by_cases hcd : c = d <;> simp [hx, hcd]
    · simp [hx]

end Evaluate

/-! ## The cells assigned -/

omit [DecidableEq C] in
theorem not_null_of_mem_cells (V : View C) (c : C) {d v : CondDomain}
    (hd : condDomainIsNull d = false) (hv : v ∈ Rule.cells V ((c, true), d)) :
    condDomainIsNull v = false := by
  rw [Rule.mem_cells V c hd] at hv
  simp only [condDomainIsNull, Bool.or_eq_false_iff, decide_eq_false_iff_not] at hd ⊢
  simp only [dNil] at hd ⊢
  split_ifs at hv <;> omega

namespace RuleConfig

variable (k : RuleConfig C)

/-- Every condition of the expression is primitive. -/
def Primitive : Prop := ∀ p ∈ k.booleanExpr.leaves, p.2 = none

variable {k}

theorem Primitive.registered (hp : k.Primitive) : ∀ q ∈ k.booleanExpr.registered, q.2 = true := by
  intro q hq
  obtain ⟨p, hmem, hpq⟩ := List.mem_map.1 (k.mem_conditions.1 (List.mem_map_of_mem hq))
  have hprim : (q.1, none) ∈ k.booleanExpr.leaves := by
    rw [← hpq, ← hp p hmem]
    exact hmem
  exact k.registered_primitive hprim hq

/-- The assignments tried for a domain give each condition a cell of its entry. -/
theorem Primitive.mem_assignments (hp : k.Primitive) (V : View C) {d value : Domain}
    (hd : d.length = k.conditions.length) :
    value ∈ Rule.assignments V (k.booleanExpr.registered.zip d) ↔
      value.length = k.conditions.length ∧ ∀ c ∈ k.conditions,
        value.at (k.conditions.idxOf c) ∈
          Rule.cells V ((c, true), d.at (k.conditions.idxOf c)) := by
  have hzip : (k.booleanExpr.registered.zip d).length = k.conditions.length := by
    rw [List.length_zip, hd, ← k.conditions_length, Nat.min_self]
  have hget : ∀ (i : ℕ) (hi : i < (k.booleanExpr.registered.zip d).length)
      (hi' : i < k.conditions.length),
      (k.booleanExpr.registered.zip d)[i] = ((k.conditions[i], true), d.at i) := by
    intro i hi hi'
    have hr : i < k.booleanExpr.registered.length := k.conditions_length ▸ hi'
    have hreg := hp.registered k.booleanExpr.registered[i] (List.getElem_mem hr)
    rw [List.getElem_zip, Domain.at_eq_getElem (hd ▸ hi')]
    simp only [conditions, List.getElem_map, ← hreg]
  rw [Rule.mem_assignments, List.forall₂_iff_get]
  constructor
  · rintro ⟨hlen, h⟩
    have hlen' : value.length = k.conditions.length := hlen.symm.trans hzip
    refine ⟨hlen', fun c hc => ?_⟩
    have hi := List.idxOf_lt_length_of_mem hc
    have := h (k.conditions.idxOf c) (hzip ▸ hi) (hlen' ▸ hi)
    rw [List.get_eq_getElem, List.get_eq_getElem, hget _ _ hi, List.getElem_idxOf hi] at this
    have hv := Domain.at_eq_getElem (d := value) (hlen' ▸ hi)
    rwa [hv]
  · rintro ⟨hlen, h⟩
    refine ⟨hzip.trans hlen.symm, fun i h₁ h₂ => ?_⟩
    have hi : i < k.conditions.length := hzip ▸ h₁
    have := h k.conditions[i] (List.getElem_mem hi)
    rw [List.Nodup.idxOf_getElem k.conditions_nodup, Domain.at_eq_getElem h₂] at this
    rwa [List.get_eq_getElem, List.get_eq_getElem, hget i h₁ hi]

end RuleConfig

namespace Rule

variable {k : RuleConfig C} (hp : k.Primitive) (V : View C)

include hp

/-- The key of an assignment: the cells of the conditions visited. -/
theorem evaluate_expr (value domain : Domain) (s : EvalState) :
    k.booleanExpr.evaluate V k.conditions value domain s =
      .ok (BooleanCond.readingOr (cellOn V k.conditions value) k.booleanExpr)
        { s with
          alarm := putCells k.conditions value s.alarm
            (BooleanCond.visitedOr (cellOn V k.conditions value) k.booleanExpr) } :=
  evaluateOr_primitive V k.conditions value domain k.booleanExpr hp s

/-- Without alarms an assignment raises one if and only if it makes the expression true. -/
theorem booleanEvaluate_primitive (now : ℤ) (value domain : Domain) {r : Rule C}
    (hr : r.alarms = []) :
    if BooleanCond.readingOr (cellOn V k.conditions value) k.booleanExpr = true then
      ∃ r', booleanEvaluate k V now value domain r = .ok true r'
    else booleanEvaluate k V now value domain r = .ok false r := by
  rw [booleanEvaluate_apply, evaluate_expr hp V]
  cases BooleanCond.readingOr (cellOn V k.conditions value) k.booleanExpr with
  | true =>
    rw [if_pos rfl]
    exact ⟨_, by simp only [hr, List.lookup_nil]; rfl⟩
  | false => rfl

/-- Without alarms a rule raises one if and only if some assignment makes its expression true. -/
theorem evaluate_primitive_iff (now : ℤ) {r : Rule C} (hr : r.alarms = [])
    (hen : r.enabled = true) (hnull : r.NoNull) :
    (∃ r', evaluate k V now r = .ok true r') ↔ ∃ p ∈ tries k V r,
      BooleanCond.readingOr (cellOn V k.conditions p.2) k.booleanExpr = true := by
  have hb := fun p : Domain × Domain => booleanEvaluate_primitive hp V now p.2 p.1 hr
  rw [evaluate_eq k V now hen hnull, anyM_ok_true_iff fun p _ => ?_]
  · refine exists_congr fun p => and_congr_right fun _ => ?_
    have := hb p
    split_ifs at this with h
    · exact iff_of_true this h
    · refine iff_of_false ?_ h
      rw [this]
      simp
  · have := hb p
    split_ifs at this
    · exact .inr this
    · exact .inl this

end Rule

/-! ## What a rule without a `WHERE` clause means -/

/-- The rule with no alarms. -/
def Rule.cleared (r : Rule C) : Rule C := { r with alarms := [] }

namespace Hitmap

/-- Some cell of the hitmap is on. -/
def anyOn (h : Hitmap) : Bool :=
  (List.range h.srcIdx.size).any fun s => (List.range h.tgtIdx.size).any fun t => (h.cells s t).on

/-- The hitmap has captured a message: it has a source and a target. -/
def Captured (h : Hitmap) : Prop := h.srcIdx ≠ OrdMap.empty ∧ h.tgtIdx ≠ OrdMap.empty

theorem anyOn_iff {h : Hitmap} : h.anyOn = true ↔
    ∃ s < h.srcIdx.size, ∃ t < h.tgtIdx.size, (h.cells s t).on = true := by
  simp only [anyOn, List.any_eq_true, List.mem_range]

omit [DecidableEq C] in
/-- The cells assigned where nothing restricts them are those of the hitmap. -/
theorem mem_cells_any (V : View C) (c : C) {v : CondDomain} :
    v ∈ Rule.cells V ((c, true), condDomainCtorAny) ↔
      ∃ s < (V.conds c).hitmap.srcIdx.size, ∃ t < (V.conds c).hitmap.tgtIdx.size,
        v = ((s : ℤ), (t : ℤ)) := by
  rw [Rule.mem_cells V c (by decide)]
  simp only [condDomainCtorAny, if_true]
  constructor
  · rintro ⟨⟨hs₀, hs⟩, ht₀, ht⟩
    exact ⟨v.1.toNat, by omega, v.2.toNat, by omega, Prod.ext (by simp [hs₀]) (by simp [ht₀])⟩
  · rintro ⟨s, hs, t, ht, rfl⟩
    simp only
    omega

end Hitmap

/-- A hitmap with sources and targets has a cell that is on if there is one. -/
theorem Hitmap.Captured.exists_cell {h : Hitmap} (hcap : h.Captured) :
    ∃ s < h.srcIdx.size, ∃ t < h.tgtIdx.size, h.anyOn = true → (h.cells s t).on = true := by
  by_cases hon : h.anyOn = true
  · obtain ⟨s, hs, t, ht, hcell⟩ := Hitmap.anyOn_iff.1 hon
    exact ⟨s, hs, t, ht, fun _ => hcell⟩
  · refine ⟨0, ?_, 0, ?_, fun h => absurd h hon⟩
    · exact Nat.pos_of_ne_zero fun h => hcap.1 (OrdMap.size_eq_zero.1 h)
    · exact Nat.pos_of_ne_zero fun h => hcap.2 (OrdMap.size_eq_zero.1 h)

/-- The assignments tried for the domain of any cells. -/
theorem RuleConfig.Primitive.mem_assignments_any {k : RuleConfig C} (hp : k.Primitive) (V : View C)
    {value : Domain} : value ∈ Rule.assignments V
      (k.booleanExpr.registered.zip (domainCtorAny k.conditions.length)) ↔
      value.length = k.conditions.length ∧ ∀ c ∈ k.conditions,
        ∃ s < (V.conds c).hitmap.srcIdx.size, ∃ t < (V.conds c).hitmap.tgtIdx.size,
          value.at (k.conditions.idxOf c) = ((s : ℤ), (t : ℤ)) := by
  have hany : ∀ c ∈ k.conditions, (domainCtorAny k.conditions.length).at (k.conditions.idxOf c) =
      condDomainCtorAny := fun c hc => Domain.at_ctorAny (List.idxOf_lt_length_of_mem hc)
  rw [hp.mem_assignments V (by simp [domainCtorAny])]
  refine and_congr_right fun _ => forall₂_congr fun c hc => ?_
  rw [hany c hc, Hitmap.mem_cells_any]

/-- Where nothing restricts the cells, some assignment makes an expression true if and only if every
condition has a cell and the expression is true of the conditions that have one that is on. -/
theorem exists_assignment_iff {k : RuleConfig C} (hp : k.Primitive) (V : View C) :
    (∃ value ∈ Rule.assignments V
        (k.booleanExpr.registered.zip (domainCtorAny k.conditions.length)),
      BooleanCond.readingOr (cellOn V k.conditions value) k.booleanExpr = true) ↔
    (∀ c ∈ k.conditions, (V.conds c).hitmap.Captured) ∧
      BooleanCond.readingOr (fun c => (V.conds c).hitmap.anyOn) k.booleanExpr = true := by
  have hleaf : ∀ p ∈ k.booleanExpr.leaves, p.1 ∈ k.conditions := fun p hp =>
    k.mem_conditions.2 (List.mem_map_of_mem hp)
  constructor
  · rintro ⟨value, hv, hr⟩
    obtain ⟨-, hv⟩ := (hp.mem_assignments_any V).1 hv
    refine ⟨fun c hc => ?_, ?_⟩
    · obtain ⟨s, hs, t, ht, -⟩ := hv c hc
      constructor <;> intro h <;> simp [h] at hs ht
    · refine BooleanCond.readingOr_mono k.booleanExpr (fun p hp hon => ?_) hr
      obtain ⟨s, hs, t, ht, heq⟩ := hv p.1 (hleaf p hp)
      refine Hitmap.anyOn_iff.2 ⟨s, hs, t, ht, ?_⟩
      simpa [cellOn, Hitmap.status, heq] using hon
  · rintro ⟨hcap, hr⟩
    -- a cell that is on for each condition that has one, any cell for the others
    have hcell : ∀ c, ∃ s t : ℕ, c ∈ k.conditions →
        s < (V.conds c).hitmap.srcIdx.size ∧ t < (V.conds c).hitmap.tgtIdx.size ∧
        ((V.conds c).hitmap.anyOn = true → ((V.conds c).hitmap.cells s t).on = true) := by
      intro c
      by_cases hc : c ∈ k.conditions
      · obtain ⟨s, hs, t, ht, hon⟩ := (hcap c hc).exists_cell
        exact ⟨s, t, fun _ => ⟨hs, ht, hon⟩⟩
      · exact ⟨0, 0, fun h => absurd h hc⟩
    choose s t hst using hcell
    have hat : ∀ c ∈ k.conditions, Domain.at (k.conditions.map fun c => ((s c : ℤ), (t c : ℤ)))
        (k.conditions.idxOf c) = ((s c : ℤ), (t c : ℤ)) := by
      intro c hc
      rw [Domain.at_eq_getElem (by simpa using List.idxOf_lt_length_of_mem hc), List.getElem_map,
        List.getElem_idxOf]
    refine ⟨k.conditions.map fun c => ((s c : ℤ), (t c : ℤ)), (hp.mem_assignments_any V).2
      ⟨by simp, fun c hc => ⟨s c, (hst c hc).1, t c, (hst c hc).2.1, hat c hc⟩⟩, ?_⟩
    refine BooleanCond.readingOr_mono k.booleanExpr (fun p hp hon => ?_) hr
    have := (hst p.1 (hleaf p hp)).2.2 hon
    simpa [cellOn, Hitmap.status, hat p.1 (hleaf p hp)] using this

namespace Engine

variable {cfg : Config C R}

/-- An enabled rule over primitive conditions without a `WHERE` clause and without alarms means what
its expression says, each condition read as having a cell that is on, if and only if every condition
has captured a message or the expression is false. -/
theorem evaluate_reads_iff {e : Engine C R} (he : Passed cfg e) {r : R}
    (hen : (e.rules r).enabled = true) (hp : (cfg.rule r).Primitive)
    (hw : (cfg.rule r).domainExpr = []) (now : ℤ) :
    ((∃ rl, Rule.evaluate (cfg.rule r) (cfg.view e) now (e.rules r).cleared =
        .ok true rl) ↔
      BooleanCond.readingOr (fun c => (e.conds c).hitmap.anyOn) (cfg.rule r).booleanExpr = true) ↔
    (∀ c ∈ (cfg.rule r).conditions, (e.conds c).hitmap.Captured) ∨
      BooleanCond.readingOr (fun c => (e.conds c).hitmap.anyOn)
        (cfg.rule r).booleanExpr = false := by
  have hwf := he.wf.rules r
  have htries : ∀ p, p ∈ Rule.tries (cfg.rule r) (cfg.view e) (e.rules r).cleared ↔
      p.1 = domainCtorAny (cfg.rule r).conditions.length ∧ p.2 ∈ Rule.assignments (cfg.view e)
        ((cfg.rule r).booleanExpr.registered.zip
          (domainCtorAny (cfg.rule r).conditions.length)) := by
    intro p
    have hdom : (e.rules r).cleared.domains = [domainCtorAny (cfg.rule r).conditions.length] :=
      hwf.any hw
    simp only [Rule.tries, hdom, List.flatMap_cons, List.flatMap_nil, List.append_nil,
      List.mem_map]
    constructor
    · rintro ⟨value, hv, rfl⟩
      exact ⟨rfl, hv⟩
    · rintro ⟨h₁, h₂⟩
      exact ⟨p.2, h₂, by rw [← h₁]⟩
  have hfire : (∃ rl, Rule.evaluate (cfg.rule r) (cfg.view e) now
      (e.rules r).cleared = .ok true rl) ↔
      (∀ c ∈ (cfg.rule r).conditions, (e.conds c).hitmap.Captured) ∧
        BooleanCond.readingOr (fun c => (e.conds c).hitmap.anyOn)
          (cfg.rule r).booleanExpr = true := by
    refine (Rule.evaluate_primitive_iff hp (cfg.view e) now (r := (e.rules r).cleared) rfl
      hen hwf.noNull).trans ?_
    refine Iff.trans ?_ (exists_assignment_iff hp (cfg.view e))
    constructor
    · rintro ⟨p, hpt, h⟩
      exact ⟨p.2, ((htries p).1 hpt).2, h⟩
    · rintro ⟨value, hv, h⟩
      exact ⟨(_, value), (htries _).2 ⟨rfl, hv⟩, h⟩
  rw [hfire, ← Bool.not_eq_true]
  generalize BooleanCond.readingOr _ _ = reading
  cases reading <;> simp

end Engine

/-- The source `x` has reported `a`. -/
def lossyFirst : Engine (Fin 3) Bool :=
  final (Engine.feed lossyConfig (lossyMsg "x" "a") 0) lossyConfig.init

/-- The rule `c || a` does not raise an alarm for the source `x`, as no message `c` has come. -/
theorem evaluate_misses_alarm : FeedReachable lossyConfig lossyFirst ∧
    (∀ rl, Rule.evaluate (lossyConfig.rule true) (lossyConfig.view lossyFirst) 0
      (lossyFirst.rules true).cleared ≠ .ok true rl) ∧
    BooleanCond.readingOr (fun c => (lossyFirst.conds c).hitmap.anyOn)
      (lossyConfig.rule true).booleanExpr = true := by
  refine ⟨FeedReachable.feed .refl _ _ (by decide +kernel), fun rl h => ?_, by decide +kernel⟩
  exact absurd (value?_of_ok h) (by decide +kernel)

/-- A message `c` has come, so the rule raises the alarm for the source `x`. -/
theorem evaluate_reads_captured : ∃ rl, Rule.evaluate (lossyConfig.rule true)
    (lossyConfig.view lossyState) 0 (lossyState.rules true).cleared = .ok true rl := by
  have hcaptured : ∀ c ∈ (lossyConfig.rule true).conditions,
      (lossyState.conds c).hitmap.Captured := by
    have hsize : ∀ c ∈ (lossyConfig.rule true).conditions,
        (lossyState.conds c).hitmap.srcIdx.size ≠ 0 ∧
          (lossyState.conds c).hitmap.tgtIdx.size ≠ 0 := by decide +kernel
    exact fun c hc => ⟨fun h => (hsize c hc).1 (by rw [h]; rfl), fun h =>
      (hsize c hc).2 (by rw [h]; rfl)⟩
  have hreads := Engine.evaluate_reads_iff lossyState_feedReachable.reachable.passed
    (r := true) (by decide +kernel) (by unfold RuleConfig.Primitive; decide) rfl 0
  exact (hreads.2 (.inl hcaptured)).2 (by decide +kernel)

/-! ## What a key names -/

theorem putCells_congr {order : List C} {value value' : Domain} :
    ∀ {cs : List C} {alarm : Domain},
      (∀ c ∈ cs, value'.at (order.idxOf c) = value.at (order.idxOf c)) →
      putCells order value' alarm cs = putCells order value alarm cs
  | [], _, _ => rfl
  | c :: cs, alarm, h => by
    have hc : putCell order value' alarm c = putCell order value alarm c := by
      unfold putCell
      rw [h c List.mem_cons_self]
    rw [putCells, putCells, List.foldl_cons, List.foldl_cons, hc]
    exact putCells_congr fun d hd => h d (List.mem_cons_of_mem _ hd)

namespace Rule

/-- Trying an assignment records a new key. -/
def Records (k : RuleConfig C) (V : View C) (now : ℤ) (r : Rule C) (p : Domain × Domain)
    (key : Domain) : Prop :=
  ∃ r', booleanEvaluate k V now p.2 p.1 r = .ok true r' ∧ r'.alarms = r.alarms ++ [(key, now)]

/-- The cells of an assignment that are on, each with its condition. -/
def onCells (k : RuleConfig C) (V : View C) (value : Domain) : Set (C × CondDomain) :=
  {p | p.1 ∈ k.conditions ∧ p.2 = value.at (k.conditions.idxOf p.1) ∧
    cellOn V k.conditions value p.1 = true}

/-- Each cell of the key is on. -/
def NamesOn (k : RuleConfig C) (V : View C) (key : Domain) : Prop :=
  ∀ c ∈ k.conditions, condDomainIsNull (key.at (k.conditions.idxOf c)) = false →
    (V.conds c).hitmap.status (key.at (k.conditions.idxOf c)) = true

/-- The cells assigned to the conditions of the first alternatives are on. -/
def FirstOn (k : RuleConfig C) (V : View C) (value : Domain) : Prop :=
  ∀ c ∈ BooleanCond.leftmostOr k.booleanExpr, cellOn V k.conditions value c = true

variable {k : RuleConfig C} (hp : k.Primitive) (V : View C)

include hp

theorem Records.key_eq {now : ℤ} {r : Rule C} {p : Domain × Domain} {key : Domain}
    (h : Records k V now r p key) :
    BooleanCond.readingOr (cellOn V k.conditions p.2) k.booleanExpr = true ∧
      key = putCells k.conditions p.2 (domainCtorNullOf p.1.length)
        (BooleanCond.visitedOr (cellOn V k.conditions p.2) k.booleanExpr) := by
  obtain ⟨r', hr', halarms⟩ := h
  rw [booleanEvaluate_apply, evaluate_expr hp V] at hr'
  cases hread : BooleanCond.readingOr (cellOn V k.conditions p.2) k.booleanExpr with
  | false => simp [hread] at hr'
  | true =>
    simp only [hread] at hr'
    split at hr'
    · simp only [EStateM.Result.ok.injEq, true_and] at hr'
      subst hr'
      have := List.append_cancel_left halarms
      simp only [List.cons.injEq, Prod.mk.injEq, and_true] at this
      exact ⟨rfl, this.symm⟩
    · split_ifs at hr'
      · simp only [EStateM.Result.ok.injEq, true_and] at hr'
        subst hr'
        simp at halarms
      · simp at hr'

variable {V}

theorem assigned_not_null {d value : Domain} (hd : d.Proper k.conditions.length)
    (hv : value ∈ assignments V (k.booleanExpr.registered.zip d)) :
    ∀ c ∈ k.conditions, condDomainIsNull (value.at (k.conditions.idxOf c)) = false := by
  intro c hc
  have hnull := hd.at_not_null (List.idxOf_lt_length_of_mem hc)
  exact not_null_of_mem_cells V c hnull (((hp.mem_assignments V hd.length).1 hv).2 c hc)

/-- A key names only cells that are on if and only if the conditions visited are on. -/
theorem Records.names_on_iff {now : ℤ} {r : Rule C} {d value key : Domain}
    (hd : d.Proper k.conditions.length)
    (hv : value ∈ assignments V (k.booleanExpr.registered.zip d))
    (h : Records k V now r (d, value) key) : NamesOn k V key ↔ FirstOn k V value := by
  obtain ⟨hread, hkey⟩ := h.key_eq hp
  have hg := k.grammatical
  simp only [Bool.and_eq_true] at hg
  rw [FirstOn, ← BooleanCond.visitedOr_on_iff k.booleanExpr hg.2 hp hread]
  have hvisited : ∀ c ∈ BooleanCond.visitedOr (cellOn V k.conditions value) k.booleanExpr,
      c ∈ k.conditions := fun c hc =>
    k.mem_conditions.2 (BooleanCond.mem_leaves_of_visitedOr k.booleanExpr hc)
  have hat : ∀ c ∈ k.conditions, key.at (k.conditions.idxOf c) =
      if c ∈ BooleanCond.visitedOr (cellOn V k.conditions value) k.booleanExpr then
        value.at (k.conditions.idxOf c)
      else condDomainCtorNull := by
    intro c hc
    have hnull : (domainCtorNullOf d.length).at (k.conditions.idxOf c) = condDomainCtorNull := by
      simp only [Domain.at, List.getD, domainCtorNullOf, List.getElem?_replicate]
      split_ifs <;> rfl
    rw [hkey, putCells_at hvisited (by simp [domainCtorNullOf, hd.length]) c hc, hnull]
    simp [condDomainIsNull, condDomainCtorNull]
  constructor
  · intro h c hc
    have hcc := hvisited c hc
    have := h c hcc
    rw [hat c hcc, if_pos hc] at this
    exact this (assigned_not_null hp hd hv c hcc)
  · intro h c hcc hnull
    rw [hat c hcc] at hnull ⊢
    split_ifs at hnull ⊢ with hc
    · exact h c hc
    · exact absurd hnull (by decide)

/-- Where the first alternatives are on, the cells that are on determine the key. -/
theorem Records.key_unique {V' : View C} {now now' : ℤ} {r r' : Rule C}
    {p p' : Domain × Domain} {key key' : Domain} (hlen : p'.1.length = p.1.length)
    (h : Records k V now r p key) (h' : Records k V' now' r' p' key')
    (hon : FirstOn k V p.2)
    (hcells : onCells k V' p'.2 = onCells k V p.2) : key' = key := by
  have hg := k.grammatical
  simp only [Bool.and_eq_true] at hg
  have hvis := BooleanCond.visitedOr_eq_leftmost k.booleanExpr hg.2 hp hon
  have hsame : ∀ c ∈ BooleanCond.leftmostOr k.booleanExpr,
      p'.2.at (k.conditions.idxOf c) = p.2.at (k.conditions.idxOf c) ∧
        cellOn V' k.conditions p'.2 c = true := by
    intro c hc
    have hcc : c ∈ k.conditions := by
      rw [k.mem_conditions]
      exact BooleanCond.mem_leaves_of_visitedOr k.booleanExpr (hvis ▸ hc)
    have hmem : (c, p.2.at (k.conditions.idxOf c)) ∈ onCells k V p.2 := ⟨hcc, rfl, hon c hc⟩
    rw [← hcells] at hmem
    exact ⟨hmem.2.1.symm, hmem.2.2⟩
  have hvis' := BooleanCond.visitedOr_eq_leftmost k.booleanExpr hg.2 hp fun c hc => (hsame c hc).2
  rw [(h.key_eq hp).2, (h'.key_eq hp).2, hvis, hvis', hlen]
  exact putCells_congr fun c hc => (hsame c hc).1

end Rule

namespace Engine

variable {cfg : Config C R}

/-- The key of a new alarm of a rule over primitive conditions names only cells that are on if and
only if the cells assigned to the first alternatives are on; and then the same cells on are never
recorded under another key. -/
theorem key_names_on_iff {e : Engine C R} (he : Passed cfg e) {r : R}
    (hp : (cfg.rule r).Primitive) {p : Domain × Domain}
    (ht : p ∈ Rule.tries (cfg.rule r) (cfg.view e) (e.rules r)) {now : ℤ} {key : Domain}
    (hrec : Rule.Records (cfg.rule r) (cfg.view e) now (e.rules r) p key) :
    (Rule.NamesOn (cfg.rule r) (cfg.view e) key ↔ Rule.FirstOn (cfg.rule r) (cfg.view e) p.2) ∧
    (Rule.FirstOn (cfg.rule r) (cfg.view e) p.2 →
      ∀ e', Passed cfg e' → ∀ p' ∈ Rule.tries (cfg.rule r) (cfg.view e') (e'.rules r),
      ∀ now' key', Rule.Records (cfg.rule r) (cfg.view e') now' (e'.rules r) p' key' →
        Rule.onCells (cfg.rule r) (cfg.view e') p'.2 = Rule.onCells (cfg.rule r) (cfg.view e) p.2 →
        key' = key) := by
  have htry : ∀ e, Passed cfg e → ∀ p ∈ Rule.tries (cfg.rule r) (cfg.view e) (e.rules r),
      p.1.Proper (cfg.rule r).conditions.length ∧ p.2 ∈ Rule.assignments (cfg.view e)
        ((cfg.rule r).booleanExpr.registered.zip p.1) := by
    intro e he p hp
    obtain ⟨d, hd, hv⟩ := List.mem_flatMap.1 hp
    obtain ⟨value, hvalue, rfl⟩ := List.mem_map.1 hv
    exact ⟨(he.wf.rules r).proper d hd, hvalue⟩
  obtain ⟨hd, hv⟩ := htry e he p ht
  refine ⟨hrec.names_on_iff hp hd hv, fun hon e' he' p' hp' now' key' hrec' hcells => ?_⟩
  obtain ⟨hd', -⟩ := htry e' he' p' hp'
  exact hrec.key_unique hp (hd'.length.trans hd.length.symm) hrec' hon hcells

end Engine

/-- With `c` off and `a` on, the rule `c || a` records a key that names the cell of `c`. -/
theorem key_names_off : Reachable lossyConfig lossyState ∧
    ([(-1, -1), (-1, -1)], [(0, 0), (0, 0)]) ∈ Rule.tries (lossyConfig.rule true)
      (lossyConfig.view lossyState) (lossyState.rules true) ∧
    Rule.Records (lossyConfig.rule true) (lossyConfig.view lossyState) 0 (lossyState.rules true)
      ([(-1, -1), (-1, -1)], [(0, 0), (0, 0)]) [(0, 0), (0, 0)] ∧
    ¬Rule.NamesOn (lossyConfig.rule true) (lossyConfig.view lossyState) [(0, 0), (0, 0)] := by
  refine ⟨lossyState_feedReachable.reachable, by decide +kernel,
    ⟨_, ok_of_value? (by decide +kernel), by decide +kernel⟩, ?_⟩
  unfold Rule.NamesOn
  decide +kernel

/-- The rule `a && b` records a key for the source `y` of which both cells are on. -/
theorem key_names_on_second :
    (Rule.NamesOn (lossyConfig.rule false) (lossyConfig.view lossyState) [(1, 0), (0, 0)] ↔
      Rule.FirstOn (lossyConfig.rule false) (lossyConfig.view lossyState) [(1, 0), (0, 0)]) ∧
    (Rule.FirstOn (lossyConfig.rule false) (lossyConfig.view lossyState) [(1, 0), (0, 0)] →
      ∀ e', Passed lossyConfig e' →
      ∀ p' ∈ Rule.tries (lossyConfig.rule false) (lossyConfig.view e') (e'.rules false),
      ∀ now' key', Rule.Records (lossyConfig.rule false) (lossyConfig.view e') now'
          (e'.rules false) p' key' →
        Rule.onCells (lossyConfig.rule false) (lossyConfig.view e') p'.2 =
          Rule.onCells (lossyConfig.rule false) (lossyConfig.view lossyState) [(1, 0), (0, 0)] →
        key' = [(1, 0), (0, 0)]) := by
  have hrec : Rule.Records (lossyConfig.rule false) (lossyConfig.view lossyState) 0
      (lossyState.rules false) ([(-1, -1), (-1, -1)], [(1, 0), (0, 0)]) [(1, 0), (0, 0)] :=
    ⟨_, ok_of_value? (by decide +kernel), by decide +kernel⟩
  have hp : (lossyConfig.rule false).Primitive := by
    unfold RuleConfig.Primitive
    decide
  exact Engine.key_names_on_iff lossyState_feedReachable.reachable.passed hp (by decide +kernel)
    hrec

end MfExtensions
