import MfExtensions.Proofs.RuleConfig

/-!
# What a rule reads

A rule reads the index maps of its conditions and whether their cells are on and the messages they
hold, the groups of a cell only through a message that names them, and the last message of a
condition and its groups only through `is_syncd`. So two views that agree on these give the same
evaluation, the same alarm message and the same actions.
-/

namespace MfExtensions

open Exec

namespace Hitmap

/-- The hitmaps look alike to a rule that does not read the groups of a cell. -/
structure Alike (h h' : Hitmap) : Prop where
  srcIdx : h'.srcIdx = h.srcIdx
  tgtIdx : h'.tgtIdx = h.tgtIdx
  on : ∀ s t, (h'.cells s t).on = (h.cells s t).on
  msgs : ∀ s t, (h'.cells s t).msgs = (h.cells s t).msgs

namespace Alike

theorem refl (h : Hitmap) : h.Alike h := ⟨rfl, rfl, fun _ _ => rfl, fun _ _ => rfl⟩

variable {h h' : Hitmap} (ha : h.Alike h')

include ha

theorem args (a : ArgT) : h'.args a = h.args a := by
  unfold Hitmap.args
  rw [ha.srcIdx, ha.tgtIdx]

theorem findArg (name : String) (a : ArgT) : h'.findArg name a = h.findArg name a := by
  unfold Hitmap.findArg
  rw [ha.args]

theorem source (v : CondDomain) : h'.source v = h.source v := by
  unfold Hitmap.source
  rw [ha.srcIdx]

theorem target (v : CondDomain) : h'.target v = h.target v := by
  unfold Hitmap.target
  rw [ha.tgtIdx]

theorem status (v : CondDomain) : h'.status v = h.status v := ha.on _ _

theorem condRange (d : CondDomain) : h'.condRange d = h.condRange d := by
  unfold Hitmap.condRange
  rw [ha.srcIdx, ha.tgtIdx]

theorem alarmCount (v : CondDomain) (a : ArgT) : h'.alarmCount v a = h.alarmCount v a := by
  simp only [Hitmap.alarmCount, ha.condRange, ha.on, ha.msgs]

theorem message (v : CondDomain) : h'.message v = h.message v := by
  simp only [Hitmap.message, Hitmap.cellOf, ha.srcIdx, ha.tgtIdx]
  have hcell : ∀ s t, (h'.cells s t).latestMessage = (h.cells s t).latestMessage :=
    fun s t => by rw [Cell.latestMessage, ha.msgs, Cell.latestMessage]
  split_ifs <;> first | rfl | exact hcell _ _

theorem messageGroup {texts texts' : Texts} {g : ℕ}
    (hcell : ∀ s t, (h'.cells s t).messageGroup texts' g = (h.cells s t).messageGroup texts g)
    (v : CondDomain) : h'.messageGroup texts' v g = h.messageGroup texts v g := by
  simp only [Hitmap.messageGroup, Hitmap.cellOf, ha.srcIdx, ha.tgtIdx]
  split_ifs <;> first | rfl | exact hcell _ _

end Alike

end Hitmap

variable {C : Type} [DecidableEq C]

namespace RuleConfig

variable (k : RuleConfig C)

/-- A function of the rule reads the last message of the condition. -/
def Syncs (c : C) : Prop := ∃ obj, (c, some (.isSyncd obj)) ∈ k.booleanExpr.leaves

/-- A message of the rule names a group of the condition. -/
def NamesGroup (c : C) : Prop :=
  ∃ m ∈ k.alarmMsg :: k.actions, ∃ s ∈ m.symbols, s.2.1 = c ∧ ∃ n, s.2.2 = .group n

end RuleConfig

/-- The views give a rule the same to read. -/
structure View.Agree (k : RuleConfig C) (V V' : View C) : Prop where
  lex : V'.lex = V.lex
  participants : V'.participants = V.participants
  hitmap : ∀ c ∈ k.conditions, (V.conds c).hitmap.Alike (V'.conds c).hitmap
  group : ∀ c, k.NamesGroup c → ∀ v n,
    (V'.conds c).arg v (.group n) = (V.conds c).arg v (.group n)
  lastSrc : ∀ c, k.Syncs c → (V'.conds c).lastSrc = (V.conds c).lastSrc
  lastTgt : ∀ c, k.Syncs c → (V'.conds c).lastTgt = (V.conds c).lastTgt
  lastGroup : ∀ c, k.Syncs c → ∀ i, (V'.conds c).msgGroup i = (V.conds c).msgGroup i

/-- Views with the same conditions of the rule. -/
theorem View.Agree.of_conds {k : RuleConfig C} {V V' : View C} (hlex : V'.lex = V.lex)
    (hparticipants : V'.participants = V.participants)
    (h : ∀ c ∈ k.conditions, V'.conds c = V.conds c) : V.Agree k V' := by
  have hs : ∀ c, k.Syncs c → V'.conds c = V.conds c := fun c ⟨_, hobj⟩ =>
    h c (k.mem_conditions.2 (List.mem_map_of_mem hobj))
  have hg : ∀ c, k.NamesGroup c → V'.conds c = V.conds c := by
    rintro c ⟨m, hm, s, hsym, rfl, -⟩
    exact h _ (k.mem_conditions.2 (k.symbols_mem m hm s hsym))
  refine ⟨hlex, hparticipants, fun c hc => ?_, fun c hc v n => ?_, fun c hc => ?_, fun c hc => ?_,
    fun c hc i => ?_⟩
  · rw [h c hc]
    exact Hitmap.Alike.refl _
  · rw [hg c hc]
  · rw [hs c hc]
  · rw [hs c hc]
  · rw [hs c hc]

namespace View.Agree

variable {k : RuleConfig C} {V V' : View C} (h : V.Agree k V')

/-! ## The expression -/

include h

theorem leaf {p : C × Option ExtFunc} (hp : p ∈ k.booleanExpr.leaves) :
    (V.conds p.1).hitmap.Alike (V'.conds p.1).hitmap :=
  h.hitmap p.1 (k.mem_conditions.2 (List.mem_map_of_mem hp))

theorem alarmEntry {c : C} {f : ExtFunc} (hp : (c, some f) ∈ k.booleanExpr.leaves)
    (dom : CondDomain) : f.alarmEntry (V'.conds c) dom = f.alarmEntry (V.conds c) dom := by
  cases f with
  | count | countPercent => rfl
  | isSyncd obj =>
    have hs : k.Syncs c := ⟨obj, hp⟩
    have ha := h.leaf hp
    simp only [ExtFunc.alarmEntry, h.lastSrc c hs, h.lastTgt c hs, ha.findArg]

theorem extFunc {c : C} {f : ExtFunc} (hp : (c, some f) ∈ k.booleanExpr.leaves)
    (dom : CondDomain) : f.evaluate V' (V'.conds c) dom = f.evaluate V (V.conds c) dom := by
  have ha := h.leaf hp
  cases f with
  | count type => simp only [ExtFunc.evaluate, ha.alarmCount]
  | countPercent type group => simp only [ExtFunc.evaluate, ha.alarmCount, h.participants]
  | isSyncd obj =>
    have hs : k.Syncs c := ⟨obj, hp⟩
    simp only [ExtFunc.evaluate, h.lastGroup c hs, h.lastSrc c hs, h.lex]

variable (order : List C) (value domain : Domain)

omit h in
mutual

theorem boolean (h : V.Agree k V') : ∀ b : BooleanCond C,
    (∀ p ∈ b.leaves, p ∈ k.booleanExpr.leaves) →
    b.evaluate V' order value domain = b.evaluate V order value domain
  | .expr e, hb => h.booleanOr e hb
  | .cond c, hb => by
    have ha := h.leaf (hb (c, none) (by simp [BooleanCond.leaves]))
    simp only [BooleanCond.evaluate, ha.status]
  | .func c f rhv, hb => by
    have hp : (c, some f) ∈ k.booleanExpr.leaves := hb _ (by simp [BooleanCond.leaves])
    simp only [BooleanCond.evaluate, h.alarmEntry hp, h.extFunc hp]

theorem booleanAnd (h : V.Agree k V') : ∀ bs : List (BooleanCond C),
    (∀ p ∈ BooleanCond.leavesAnd bs, p ∈ k.booleanExpr.leaves) →
    BooleanCond.evaluateAnd V' order value domain bs =
      BooleanCond.evaluateAnd V order value domain bs
  | [], _ => rfl
  | b :: bs, hb => by
    simp only [BooleanCond.leavesAnd, List.mem_append] at hb
    simp only [BooleanCond.evaluateAnd, h.boolean b fun p hp => hb p (.inl hp),
      h.booleanAnd bs fun p hp => hb p (.inr hp)]

theorem booleanOr (h : V.Agree k V') : ∀ e : List (List (BooleanCond C)),
    (∀ p ∈ BooleanCond.leavesOr e, p ∈ k.booleanExpr.leaves) →
    BooleanCond.evaluateOr V' order value domain e =
      BooleanCond.evaluateOr V order value domain e
  | [], _ => rfl
  | a :: as, hb => by
    simp only [BooleanCond.leavesOr, List.mem_append] at hb
    simp only [BooleanCond.evaluateOr, h.booleanAnd a fun p hp => hb p (.inl hp),
      h.booleanOr as fun p hp => hb p (.inr hp)]

end

/-! ## The rule -/

omit order value domain

theorem maps : k.maps V'.conds = k.maps V.conds := by
  funext c
  unfold RuleConfig.maps
  split_ifs with hc
  · rw [(h.hitmap c hc).srcIdx, (h.hitmap c hc).tgtIdx]
  · rfl

theorem booleanEvaluate (now : ℤ) (value domain : Domain) :
    Rule.booleanEvaluate k V' now value domain = Rule.booleanEvaluate k V now value domain := by
  simp only [Rule.booleanEvaluate, BooleanExpr.evaluate, h.maps,
    h.booleanOr k.conditions value domain k.booleanExpr fun _ hp => hp]

theorem recursiveEvaluate (now : ℤ) (domain : Domain) :
    ∀ (l : List ((C × Bool) × CondDomain)) (value : Domain), (∀ p ∈ l, p.1.1 ∈ k.conditions) →
      Rule.recursiveEvaluate k V' now domain l value =
        Rule.recursiveEvaluate k V now domain l value
  | [], value, _ => h.booleanEvaluate now value domain
  | ((c, primitive), d) :: rest, value, hl => by
    obtain ⟨hc, hl⟩ := List.forall_mem_cons.1 hl
    simp only [Rule.recursiveEvaluate, (h.hitmap c hc).condRange,
      recursiveEvaluate now domain rest _ hl]

theorem evaluate (now : ℤ) : Rule.evaluate k V' now = Rule.evaluate k V now := by
  have hzip : ∀ d : Domain, ∀ p ∈ k.booleanExpr.registered.zip d, p.1.1 ∈ k.conditions :=
    fun d p hp => List.mem_map_of_mem (List.of_mem_zip hp).1
  simp only [Rule.evaluate, h.recursiveEvaluate now _ _ _ (hzip _)]

/-! ## Its messages -/

theorem arg {m : RichMsg C} (hm : m ∈ k.alarmMsg :: k.actions) {s : ℕ × C × ArgT}
    (hs : s ∈ m.symbols) (v : CondDomain) :
    (V'.conds s.2.1).arg v s.2.2 = (V.conds s.2.1).arg v s.2.2 := by
  have ha := h.hitmap s.2.1 (k.mem_conditions.2 (k.symbols_mem m hm s hs))
  rcases ht : s.2.2 with _ | _ | _ | _ | n
  · rfl
  · exact ha.source v
  · exact ha.target v
  · exact ha.message v
  · exact h.group s.2.1 ⟨m, hm, s, hs, rfl, n, ht⟩ v n

theorem insertSymbols {m : RichMsg C} (hm : m ∈ k.alarmMsg :: k.actions) (alarm : Domain)
    (strippedMsg : String) : ∀ l : List (ℕ × C × ArgT), (∀ s ∈ l, s ∈ m.symbols) →
      RichMsg.insertSymbols k V' alarm strippedMsg l =
        RichMsg.insertSymbols k V alarm strippedMsg l
  | [], _ => rfl
  | (pos, c, a) :: rest, hl => by
    obtain ⟨hs, hl⟩ := List.forall_mem_cons.1 hl
    have harg := h.arg hm hs
    simp only at harg
    simp only [RichMsg.insertSymbols, insertSymbols hm alarm strippedMsg rest hl, harg]

theorem message {m : RichMsg C} (hm : m ∈ k.alarmMsg :: k.actions) (r : Rule C) :
    m.message k V' r = m.message k V r := by
  simp only [RichMsg.message, h.insertSymbols hm _ _ _ fun _ hs => hs]

theorem act (r : Rule C) : ∀ l : List (RichMsg C), (∀ m ∈ l, m ∈ k.actions) →
    Rule.act k V' r l = Rule.act k V r l
  | [], _ => rfl
  | p :: ps, hl => by
    obtain ⟨hp, hl⟩ := List.forall_mem_cons.1 hl
    simp only [Rule.act, h.message (List.mem_cons_of_mem _ hp), act r ps hl]

end View.Agree

end MfExtensions
