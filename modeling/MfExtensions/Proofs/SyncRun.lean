import MfExtensions.Lib.Machine
import MfExtensions.Proofs.SyncUpdates
import MfExtensions.Proofs.Takes

/-!
# What is_syncd sees

The messages that the condition of an `is_syncd` captures and the updates of its table are kept
beside a run of the engine. An update takes its time out of the strings of the message fed last, so
it is of a captured message only if it is made in the same feed. Whether and how often it is made
there depends on the flips of the rule's conditions, on its assignments and on the terms in front.
Where the term is asked once in each feed that its condition captures, and not in between, the
updates are those of the captured messages (`SyncRun.updates_captured`).
-/

namespace MfExtensions

open Exec

/-- The source and the time of a message that the condition is about. -/
def CondConfig.syncPair (L : LexicalCast) (k : CondConfig) (msg : Msg) :
    Option (String × UInt64) :=
  Condition.syncPair L { texts := msg.texts, lastSrc := msg.app, lastWhat := k.lastMatch msg }

variable {C R : Type} [DecidableEq C] [LinearOrder R]

/-! ## Runs -/

namespace Engine

variable (cfg : Config C R) (c : C) (r : R) (obj : ℕ)

/-- Whether the condition captures the message. -/
def captures (msg : Msg) (e : Engine C R) : Bool :=
  match value? (Condition.matchMsg cfg.lex (cfg.cond c) msg) (e.conds c) with
  | some (some _) => true
  | _ => false

/-- The rule is on and has a condition whose status flipped. It has one assignment, and there the
evaluation comes to the term before any other `is_syncd`. -/
structure Asks (status : List C) (e : Engine C R) : Prop where
  enabled : (e.rules r).enabled = true
  flipped : ∃ c' ∈ (cfg.rule r).booleanExpr.leaves.map Prod.fst, c' ∈ status
  single : ∃ p, Rule.tries (cfg.rule r) (cfg.view e) (e.rules r) = [p] ∧
    Rule.front (cfg.rule r) (cfg.view e) p = .error (c, .isSyncd obj)

/-- The rule is off, has no condition whose status flipped, or every assignment is decided before
the evaluation comes to an `is_syncd`. -/
def Silent (status : List C) (e : Engine C R) : Prop :=
  (e.rules r).enabled = false ∨
    (∀ c' ∈ (cfg.rule r).booleanExpr.leaves.map Prod.fst, c' ∉ status) ∨
    ∀ p ∈ Rule.tries (cfg.rule r) (cfg.view e) (e.rules r),
      ∃ b, Rule.front (cfg.rule r) (cfg.view e) p = .ok b

end Engine

namespace Op

variable (cfg : Config C R) (c : C) (r : R) (obj : ℕ)

/-- The messages that the condition captures in a call. -/
def captured : Op → Engine C R → List Msg
  | .feed msg _, e => if e.captures cfg c msg then [msg] else []
  | _, _ => []

/-- Error handling is off. In the state in which the rules are to be evaluated the rule asks the
term if the condition captures the message, whose first group is a number, and no `is_syncd` in any
other feed or pass of the event worker. -/
def Regular : Op → Engine C R → Prop
  | .feed msg _, e => e.EHS = false ∧ ∀ l e', Engine.prepare cfg msg e = .ok l e' →
      if e.captures cfg c msg then
        e'.Asks cfg c r obj l.status ∧ ((cfg.cond c).syncPair cfg.lex msg).isSome
      else e'.Silent cfg r l.status
  | .eventWorker now _, e => e.EHS = false ∧
      (Engine.deliverDue cfg now e).1.Silent cfg r (Engine.deliverDue cfg now e).2
  | _, _ => True

end Op

/-- A run of the engine, with the messages that the condition captured and the updates of the
table. -/
structure SyncRun (C R : Type) where
  engine : Engine C R
  captured : List Msg := []
  updates : List (String × UInt64) := []

namespace SyncRun

variable (cfg : Config C R) (c : C) (r : R) (obj : ℕ)

def next (op : Op) (s : SyncRun C R) : SyncRun C R where
  engine := final (op.exec cfg) s.engine
  captured := s.captured ++ op.captured cfg c s.engine
  updates := s.updates ++ op.updates cfg r obj s.engine

/-- A call that does not throw. -/
def step (op : Op) (s : SyncRun C R) : Option (SyncRun C R) :=
  if (value? (op.exec cfg) s.engine).isSome then some (s.next cfg c r obj op) else none

end SyncRun

/-! ### The updates of a regular call -/

namespace Engine

variable {cfg : Config C R} {c : C} {r : R} {obj : ℕ} {msg : Msg} {l : Changed C}
  {e e' : Engine C R}

theorem notifyStatus_nodup : (notifyStatus cfg l).Nodup :=
  (cfg.mergeNotifyList_sorted .status _ .nil).imp ne_of_lt

theorem prepare_ehs : Moves (fun e e' => e'.EHS = e.EHS) (prepare cfg msg) := by
  refine moves_prepare (Pre.frame EHS) (matchConds_ehs cfg msg _ _) fun l e => ?_
  exact congrArg Prod.fst (evaluateRulesDomain_unswitched cfg _ e)

/-- A condition that captures the message has it as its last one. -/
theorem syncPair_captured (h : prepare cfg msg e = .ok l e') (he : Reachable cfg e)
    (hcap : e.captures cfg c msg = true) :
    (e'.conds c).syncPair cfg.lex = (cfg.cond c).syncPair cfg.lex msg := by
  obtain ⟨l₁, e₁, hmatch, h⟩ := bind_ok.1 h
  obtain ⟨⟨⟩, e₂, hdomains, h⟩ := bind_ok.1 h
  cases h
  have hconds : e'.conds = e₁.conds :=
    (moves_evaluateRulesDomain cfg (Pre.frame conds) _ fun r _ e => by
      rw [final_onRule]).of_ok hdomains
  obtain ⟨x, hx⟩ := (matchConds_ok cfg.cmap_nodup hmatch).1 c (cfg.mem_cmap c)
  obtain ⟨p, rfl⟩ : ∃ p, x = some p := by
    rw [captures, value?_of_ok hx] at hcap
    cases x with
    | none => simp at hcap
    | some p => exact ⟨p, rfl⟩
  obtain ⟨hsrc, hwhat, htexts⟩ := Condition.matchMsg_last (he.twin.conds c).sound hx
  rw [hconds, CondConfig.syncPair, Condition.syncPair, Condition.syncPair, Condition.msgGroup,
    Condition.msgGroup, hsrc, hwhat, htexts]

variable {now : ℤ} {status : List C} {e'' : Engine C R}

/-- The updates of a pass in which no function of the rule is asked. -/
theorem Silent.updatesOf (h : e.Silent cfg r status) (hEHS : e.EHS = false)
    (hpass : evaluateRules cfg now (notifyStatus cfg { status }) e = .ok () e'') :
    Engine.updatesOf cfg now r obj (notifyStatus cfg { status }) e = [] := by
  rw [updatesOf_eq r obj notifyStatus_nodup hEHS hpass]
  split_ifs with hr
  · obtain ⟨c', hc', hflip⟩ := mem_notifyStatus.1 hr
    rcases h with hoff | hnone | hdecided
    · rw [Rule.updates, hoff]
      rfl
    · exact absurd hflip (hnone c' hc')
    · exact Rule.updates_nil now hdecided
  · rfl

/-- The update of a pass in which the term is asked. -/
theorem Asks.updatesOf (h : e.Asks cfg c r obj status) (hEHS : e.EHS = false)
    (hown : Rule.syncOwners (cfg.rule r) obj = [c])
    (hpass : evaluateRules cfg now (notifyStatus cfg { status }) e = .ok () e'') :
    Engine.updatesOf cfg now r obj (notifyStatus cfg { status }) e =
      ((e.conds c).syncPair cfg.lex).toList := by
  obtain ⟨p, htries, hfront⟩ := h.single
  have hr : r ∈ notifyStatus cfg { status } := mem_notifyStatus.2 h.flipped
  rw [updatesOf_eq r obj notifyStatus_nodup hEHS hpass, if_pos hr]
  exact Rule.updates_single now h.enabled htries hfront hown

end Engine

/-- The updates of a regular call are those of the messages captured in it. -/
theorem Op.Regular.updates_eq {cfg : Config C R} {c : C} {r : R} {obj : ℕ} {op : Op}
    {e e' : Engine C R} (h : op.Regular cfg c r obj e) (he : Reachable cfg e)
    (hown : Rule.syncOwners (cfg.rule r) obj = [c]) (hok : op.exec cfg e = .ok () e') :
    (op.updates cfg r obj e).map some =
      (op.captured cfg c e).map ((cfg.cond c).syncPair cfg.lex) := by
  cases op with
  | feed msg now =>
    rw [Op.exec, Engine.feed_eq] at hok
    obtain ⟨l, e₁, hprepare, hpass⟩ := bind_ok.1 hok
    have hEHS : e₁.EHS = false := (Engine.prepare_ehs.of_ok hprepare).trans h.1
    have hupdates : (Op.feed msg now).updates cfg r obj e =
        Engine.updatesOf cfg now r obj (Engine.notifyStatus cfg l) e₁ := by
      simp only [updates, value?_of_ok hprepare, final_ok hprepare]
    have hregular := h.2 l e₁ hprepare
    rw [hupdates, captured]
    split_ifs at hregular ⊢ with hcap
    · obtain ⟨hasks, hpair⟩ := hregular
      obtain ⟨q, hq⟩ := Option.isSome_iff_exists.1 hpair
      have hlast := Engine.syncPair_captured hprepare he hcap
      have hone := hasks.updatesOf hEHS hown hpass
      rw [hlast, hq] at hone
      change Engine.updatesOf cfg now r obj (Engine.notifyStatus cfg l) e₁ = [q] at hone
      rw [hone, List.map_singleton, List.map_singleton, hq]
    · have hnone : Engine.updatesOf cfg now r obj (Engine.notifyStatus cfg l) e₁ = [] :=
        hregular.updatesOf hEHS hpass
      rw [hnone]
      rfl
  | eventWorker now tod =>
    have hnone : (Op.eventWorker now tod).updates cfg r obj e = [] := h.2.updatesOf h.1 hok
    rw [hnone]
    rfl
  | enableRule | enableEHS | participants | resetRule | resetRules | resetCond | resetConds
  | reset => rfl

namespace SyncRun

variable {cfg : Config C R} {c : C} {r : R} {obj : ℕ}

/-- The table is what the updates make of it, and they are those of the captured messages. -/
structure Accounts (cfg : Config C R) (c : C) (r : R) (obj : ℕ) (s : SyncRun C R) : Prop where
  reachable : Reachable cfg s.engine
  updates : s.updates.map some = s.captured.map ((cfg.cond c).syncPair cfg.lex)
  table : (s.engine.rules r).sync obj = s.updates.foldl SyncTable.update {}

theorem Accounts.step {op : Op} {s s' : SyncRun C R} (h : s.Accounts cfg c r obj)
    (hown : Rule.syncOwners (cfg.rule r) obj = [c]) (hok : op.Regular cfg c r obj s.engine)
    (hs : step cfg c r obj op s = some s') : s'.Accounts cfg c r obj := by
  unfold SyncRun.step at hs
  split_ifs at hs with hsome
  cases hs
  obtain ⟨⟨⟩, hvalue⟩ := Option.isSome_iff_exists.1 hsome
  have hx := ok_of_value? hvalue
  refine ⟨h.reachable.step op, ?_, ?_⟩
  · simp only [next, List.map_append, h.updates, hok.updates_eq h.reachable hown hx]
  · simp only [next, op.exec_sync h.reachable.passed, List.foldl_append, h.table]

end SyncRun

/-! ## A time of another message -/

/-- Three rules with `is_syncd(c)`: alone, behind another condition and behind `c`. -/
def syncConfig : Config Bool (Fin 3) where
  lex := ⟨fun _ => none, fun s =>
    if s = "100" then some 100 else if s = "102" then some 102 else
      if s = "777" then some 777 else none⟩
  cmap := [false, true]
  rmap := List.finRange 3
  cond
    | false => { name := "d", severity := .debug, anySrc := false,
                 eSrcs := [Regex.literal "app"], e := Regex.wholeText }
    | true => { name := "c", severity := .debug, anySrc := false,
                eSrcs := [Regex.literal "x", Regex.literal "y"], e := Regex.wholeText,
                perSource := true }
  rule
    | 0 => .plain "p" [[.func true (.isSyncd 0) .none]] [] "hit" [] (Eq.refl true)
    | 1 => .plain "q" [[.cond false, .func true (.isSyncd 0) .none]] [] "hit" [] (Eq.refl true)
    | 2 => .plain "r" [[.cond true, .func true (.isSyncd 0) .none]] [] "hit" [] (Eq.refl true)
  mem_cmap := mem_bools
  cmap_nodup := bools_nodup
  mem_rmap := List.mem_finRange
  rmap_nodup := List.nodup_finRange 3
  condName_inj := by decide
  ruleName_inj := by decide

/-- The calls of a run of the rule. -/
def SyncRun.after (r : Fin 3) (ops : List Op) : SyncRun Bool (Fin 3) :=
  ops.foldl (fun s op => s.next syncConfig true r 0 op) { engine := syncConfig.init }

/-- All three messages are captured. The second is taken for each source that `c` is on for, and the
third flips no status. -/
example : (SyncRun.after 2 [.feed (lossyMsg "x" "100") 0, .feed (lossyMsg "y" "102") 0,
    .feed (lossyMsg "x" "102") 0]).updates = [("x", 100), ("y", 102), ("y", 102)] := by
  decide +kernel

end MfExtensions
