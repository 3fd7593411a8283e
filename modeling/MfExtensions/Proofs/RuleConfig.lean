import Mathlib.Data.List.Nodup
import MfExtensions.Rule

/-!
# The condition vector of a rule

Registering the conditions of an expression one after the other gives each of them once
(`conditions_nodup`), and those of the expression and no other (`mem_conditions`).
-/

namespace MfExtensions

variable {C : Type} [DecidableEq C]

theorem map_fst_insertConditionPtr (c : C) (b : Bool) : ∀ ps : List (C × Bool),
    (insertConditionPtr c b ps).map Prod.fst =
      if c ∈ ps.map Prod.fst then ps.map Prod.fst else ps.map Prod.fst ++ [c]
  | [] => by simp [insertConditionPtr]
  | p :: ps => by
    unfold insertConditionPtr
    split_ifs with h1 h2 h2
    · simp
    · simp [h1] at h2
    · simp only [List.map_cons, List.mem_cons] at h2 ⊢
      rw [map_fst_insertConditionPtr c b ps, if_pos (h2.resolve_left fun h => h1 h.symm)]
    · simp only [List.map_cons, List.mem_cons, not_or] at h2 ⊢
      rw [map_fst_insertConditionPtr c b ps, if_neg h2.2, List.cons_append]

theorem mem_insertConditionPtr {c c' : C} {b : Bool} {ps : List (C × Bool)} :
    c' ∈ (insertConditionPtr c b ps).map Prod.fst ↔ c' ∈ ps.map Prod.fst ∨ c' = c := by
  rw [map_fst_insertConditionPtr]
  split_ifs with hm
  · exact ⟨.inl, fun h => h.elim id fun h => h ▸ hm⟩
  · simp

theorem foldl_insertConditionPtr (ls : List (C × Option ExtFunc)) : ∀ ps : List (C × Bool),
    (ps.map Prod.fst).Nodup →
      ((ls.foldl (fun ps p => insertConditionPtr p.1 p.2.isNone ps) ps).map Prod.fst).Nodup ∧
      ∀ c, c ∈ (ls.foldl (fun ps p => insertConditionPtr p.1 p.2.isNone ps) ps).map Prod.fst ↔
        c ∈ ps.map Prod.fst ∨ c ∈ ls.map Prod.fst := by
  induction ls with
  | nil => exact fun ps h => ⟨h, fun c => by simp⟩
  | cons l ls ih =>
    intro ps h
    have hnd : ((insertConditionPtr l.1 l.2.isNone ps).map Prod.fst).Nodup := by
      rw [map_fst_insertConditionPtr]
      split_ifs with hm
      · exact h
      · rw [List.nodup_append]
        refine ⟨h, List.nodup_singleton _, fun a ha b hb => ?_⟩
        rw [List.mem_singleton.1 hb]
        rintro rfl
        exact hm ha
    obtain ⟨h₁, h₂⟩ := ih _ hnd
    refine ⟨h₁, fun c => (h₂ c).trans ?_⟩
    rw [mem_insertConditionPtr, List.map_cons, List.mem_cons, or_assoc]

theorem mem_insertConditionPtr_self (c : C) : ∀ ps : List (C × Bool),
    (c, true) ∈ insertConditionPtr c true ps
  | [] => List.mem_singleton.2 rfl
  | p :: ps => by
    unfold insertConditionPtr
    split_ifs with h
    · rw [h, Bool.or_true]
      exact List.mem_cons_self
    · exact List.mem_cons_of_mem _ (mem_insertConditionPtr_self c ps)

theorem mem_insertConditionPtr_of_mem {c d : C} {b : Bool} : ∀ {ps : List (C × Bool)},
    (d, true) ∈ ps → (d, true) ∈ insertConditionPtr c b ps
  | p :: ps, h => by
    unfold insertConditionPtr
    split_ifs
    · rcases List.mem_cons.1 h with rfl | h
      · exact List.mem_cons_self
      · exact List.mem_cons_of_mem _ h
    · rcases List.mem_cons.1 h with rfl | h
      · exact List.mem_cons_self
      · exact List.mem_cons_of_mem _ (mem_insertConditionPtr_of_mem h)

omit [DecidableEq C] in
mutual

theorem leaves_ne_nil : ∀ {b : BooleanCond C}, b.grammatical = true → b.leaves ≠ []
  | .expr e, h => by
    simp only [BooleanCond.grammatical, Bool.and_eq_true, Bool.not_eq_true',
      List.isEmpty_eq_false_iff] at h
    exact leavesOr_ne_nil h.1 h.2
  | .cond c, _ => by simp [BooleanCond.leaves]
  | .func c f rhv, _ => by simp [BooleanCond.leaves]

theorem leavesAnd_ne_nil : ∀ {bs : List (BooleanCond C)}, bs ≠ [] →
    BooleanCond.grammaticalAnd bs = true → BooleanCond.leavesAnd bs ≠ []
  | b :: bs, _, h => by
    simp only [BooleanCond.grammaticalAnd, Bool.and_eq_true] at h
    exact List.append_ne_nil_of_left_ne_nil (leaves_ne_nil h.1) _

theorem leavesOr_ne_nil : ∀ {e : List (List (BooleanCond C))}, e ≠ [] →
    BooleanCond.grammaticalOr e = true → BooleanCond.leavesOr e ≠ []
  | a :: as, _, h => by
    simp only [BooleanCond.grammaticalOr, Bool.and_eq_true, Bool.not_eq_true',
      List.isEmpty_eq_false_iff] at h
    exact List.append_ne_nil_of_left_ne_nil (leavesAnd_ne_nil h.1.1 h.1.2) _

end

namespace DomainCond

omit [DecidableEq C] in
mutual

theorem source_or_target : ∀ {b : DomainCond C}, b.grammatical = true →
    ∀ p ∈ b.args, p.2 = .source ∨ p.2 = .target
  | .expr e, h, p, hp => source_or_targetOr (e := e) h p hp
  | .chain as str, h, p, hp => by
    simp only [grammatical, Bool.and_eq_true, List.all_eq_true, Bool.or_eq_true,
      decide_eq_true_eq] at h
    exact h.2 p hp

theorem source_or_targetAnd : ∀ {bs : List (DomainCond C)}, grammaticalAnd bs = true →
    ∀ p ∈ argsAnd bs, p.2 = .source ∨ p.2 = .target
  | [], _, p, hp => by simp [argsAnd] at hp
  | b :: bs, h, p, hp => by
    simp only [grammaticalAnd, Bool.and_eq_true] at h
    rw [argsAnd, List.mem_append] at hp
    exact hp.elim (source_or_target h.1 p) (source_or_targetAnd h.2 p)

theorem source_or_targetOr : ∀ {e : List (List (DomainCond C))}, grammaticalOr e = true →
    ∀ p ∈ argsOr e, p.2 = .source ∨ p.2 = .target
  | [], _, p, hp => by simp [argsOr] at hp
  | a :: as, h, p, hp => by
    simp only [grammaticalOr, Bool.and_eq_true] at h
    rw [argsOr, List.mem_append] at hp
    exact hp.elim (source_or_targetAnd h.1.2 p) (source_or_targetOr h.2 p)

end

end DomainCond

namespace RuleConfig

variable (k : RuleConfig C)

theorem conditions_nodup : k.conditions.Nodup :=
  (foldl_insertConditionPtr k.booleanExpr.leaves [] List.nodup_nil).1

theorem mem_conditions {c : C} : c ∈ k.conditions ↔ c ∈ k.booleanExpr.leaves.map Prod.fst :=
  ((foldl_insertConditionPtr k.booleanExpr.leaves [] List.nodup_nil).2 c).trans (by simp)

/-- A condition the expression uses as a primitive one is registered as primitive. -/
theorem registered_primitive {c : C} {b : Bool} (hc : (c, none) ∈ k.booleanExpr.leaves)
    (hb : (c, b) ∈ k.booleanExpr.registered) : b = true := by
  have hmem : ∀ (ls : List (C × Option ExtFunc)) (ps : List (C × Bool)),
      (c, true) ∈ ps ∨ (c, none) ∈ ls →
      (c, true) ∈ ls.foldl (fun ps p => insertConditionPtr p.1 p.2.isNone ps) ps := by
    intro ls
    induction ls with
    | nil => exact fun ps h => h.resolve_right (by simp)
    | cons l ls ih =>
      intro ps h
      rw [List.foldl_cons]
      rcases h with h | h
      · exact ih _ (.inl (mem_insertConditionPtr_of_mem h))
      · rcases List.mem_cons.1 h with rfl | h
        · exact ih _ (.inl (mem_insertConditionPtr_self c ps))
        · exact ih _ (.inr h)
  have htrue : (c, true) ∈ k.booleanExpr.registered := hmem _ [] (.inr hc)
  have := List.inj_on_of_nodup_map k.conditions_nodup hb htrue rfl
  exact congrArg Prod.snd this

theorem leaves_ne : k.booleanExpr.leaves ≠ [] := by
  have h := k.grammatical
  simp only [Bool.and_eq_true, Bool.not_eq_true', List.isEmpty_eq_false_iff] at h
  exact leavesOr_ne_nil h.1 h.2

theorem conditions_ne_nil : k.conditions ≠ [] := by
  obtain ⟨p, ps, h⟩ := List.exists_cons_of_ne_nil k.leaves_ne
  have : p.1 ∈ k.conditions := by
    rw [mem_conditions, h]
    exact List.mem_cons_self
  exact List.ne_nil_of_mem this

theorem conditions_length : k.conditions.length = k.booleanExpr.registered.length := by
  simp [conditions]

end RuleConfig

/-! ## Small configurations -/

/-- A rule of which no message names a condition, if the parser accepts it. -/
def RuleConfig.plain (name : String) (e : BooleanExpr C) (w : DomainExpr C) (msg : String)
    (actions : List String) (h : (e.grammatical && w.grammatical &&
      w.args.all fun p => (e.leaves.map Prod.fst).contains p.1) = true) : RuleConfig C where
  name
  booleanExpr := e
  domainExpr := w
  alarmMsg := ⟨msg, []⟩
  actions := actions.map fun s => ⟨s, []⟩
  grammatical := by
    rw [Bool.and_eq_true, Bool.and_eq_true] at h
    exact h.1.1
  domainGrammatical := by
    rw [Bool.and_eq_true, Bool.and_eq_true] at h
    exact h.1.2
  args_mem p hp := by
    rw [Bool.and_eq_true, List.all_eq_true] at h
    exact List.contains_iff_mem.1 (h.2 p hp)
  symbols_mem m hm s hs := by
    rw [List.mem_cons, List.mem_map] at hm
    rcases hm with rfl | ⟨a, -, rfl⟩ <;> simp at hs

/-- A rule without a `WHERE` clause whose alarm message names conditions, if the parser accepts
it. -/
def RuleConfig.naming (name : String) (e : BooleanExpr C) (alarmMsg : RichMsg C)
    (h : (e.grammatical && alarmMsg.symbols.all fun s =>
      (e.leaves.map Prod.fst).contains s.2.1) = true) : RuleConfig C where
  name
  booleanExpr := e
  alarmMsg
  grammatical := by
    rw [Bool.and_eq_true] at h
    exact h.1
  domainGrammatical := rfl
  args_mem p hp := by simp [DomainExpr.args, DomainCond.argsOr] at hp
  symbols_mem m hm s hs := by
    rw [Bool.and_eq_true, List.all_eq_true] at h
    rw [List.mem_singleton.1 hm] at hs
    exact List.contains_iff_mem.1 (h.2 s hs)

theorem mem_bools : ∀ b : Bool, b ∈ [false, true] := by decide

theorem bools_nodup : [false, true].Nodup := by decide

theorem mem_unit (u : Unit) : u ∈ [()] := List.mem_singleton.2 rfl

theorem unit_nodup : [()].Nodup := List.nodup_singleton ()

end MfExtensions
