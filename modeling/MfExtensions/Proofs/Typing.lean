import MfExtensions.Proofs.Invariants

/-!
# The types of functions and literals

A function's result is cast to the type of the literal it is compared with, or to `bool` without
one, when the rule is evaluated. A rule in which every function fits its literal never throws
`bad_any_cast` (`evaluate_typed`), and a function that does not fit throws it whenever it returns.
-/

namespace MfExtensions

open Exec

variable {C R : Type} [DecidableEq C] [LinearOrder R]

/-- The result of the function can be compared with the literal: a count with a number, and
`is_syncd` with a boolean or with nothing. -/
def ExtFunc.fits : ExtFunc → Rhv → Bool
  | .count _, .double _ _ => true
  | .countPercent _ _, .double _ _ => true
  | .isSyncd _, .none => true
  | .isSyncd _, .bool _ _ => true
  | _, _ => false

omit [DecidableEq C] in
mutual

/-- Every function of the expression fits the literal it is compared with. -/
def BooleanCond.wellTyped : BooleanCond C → Bool
  | .expr e => BooleanCond.wellTypedOr e
  | .cond _ => true
  | .func _ f rhv => f.fits rhv

def BooleanCond.wellTypedAnd : List (BooleanCond C) → Bool
  | [] => true
  | b :: bs => b.wellTyped && BooleanCond.wellTypedAnd bs

def BooleanCond.wellTypedOr : List (List (BooleanCond C)) → Bool
  | [] => true
  | a :: as => BooleanCond.wellTypedAnd a && BooleanCond.wellTypedOr as

end

/-- What `ma_boolean_cond::evaluate` throws for a condition of no known type. -/
def unknowCondType : Err := .runtime "ma_boolean_cond::evaluate(): unknow cond_type"

/-- An error of an expression that is well typed or not. -/
def Typed (wellTyped : Bool) (e : Err) : Prop :=
  e ≠ unknowCondType ∧ (e = .badAnyCast → wellTyped = false)

namespace ExtFunc

theorem condRange_error {h : Hitmap} {d : CondDomain} {e : Err} (he : h.condRange d = .error e) :
    e = .runtime "get_cond_range: NIL domain" := by
  unfold Hitmap.condRange at he
  split_ifs at he
  exact (Except.error.inj he).symm

theorem alarmCount_error {h : Hitmap} {d : CondDomain} {a : ArgT} {e : Err}
    (he : h.alarmCount d a = .error e) : e = .runtime "get_cond_range: NIL domain" := by
  unfold Hitmap.alarmCount at he
  rcases hr : h.condRange d with e' | ranges <;> rw [hr] at he
  · simp only [bind, Except.bind, Except.error.injEq] at he
    exact he ▸ condRange_error hr
  · simp only [bind, Except.bind, pure, Except.pure] at he
    split_ifs at he

theorem unknow_ne_range : Err.runtime "get_cond_range: NIL domain" ≠ unknowCondType := by
  decide

/-- A message that ends in another letter. -/
theorem unknow_ne_group (group : String) :
    Err.runtime (group ++ " does not exist while getting participant count") ≠ unknowCondType := by
  intro h
  have hlast := congrArg (fun s : String => s.toList.getLast?) (Err.runtime.inj h)
  simp only [String.toList_append] at hlast
  rw [List.getLast?_append_of_ne_nil _ (by decide)] at hlast
  revert hlast
  decide

variable (V : View C) (c : Condition) (d : CondDomain)

omit [DecidableEq C] in
/-- The errors of a function say nothing of types. -/
theorem throws_evaluate : ∀ f : ExtFunc, Throws (Typed true) (f.evaluate V c d)
  | .count type => by
    refine throws_bind (throws_orThrow fun e he => ?_) fun _ => throws_pure _
    rw [alarmCount_error he]
    exact ⟨unknow_ne_range, by simp⟩
  | .countPercent type group => by
    refine throws_bind (throws_orThrow fun e he => ?_) fun _ =>
      throws_bind (throws_orThrow fun e he => ?_) fun _ => throws_pure _
    · rw [alarmCount_error he]
      exact ⟨unknow_ne_range, by simp⟩
    · unfold Participants.groupCount at he
      rcases hg : V.participants.groups.find? group with _ | apps <;> simp only [hg] at he
      · rw [← Except.error.inj he]
        exact ⟨unknow_ne_group group, by simp⟩
      · cases he
  | .isSyncd obj => by
    refine throws_bind (throws_orThrow fun e he => ?_) fun timeStr => ?_
    · unfold Condition.msgGroup Smatch.sub at he
      split_ifs at he <;> rw [← Except.error.inj he] <;> exact ⟨by decide, by simp⟩
    · cases V.lex.toUInt64 timeStr with
      | none => exact throws_pure _
      | some time => exact throws_get_bind fun s e s' h => by simp [bind_apply] at h

omit [DecidableEq C] in
/-- Comparing a result that fits the literal never fails, and comparing another always does. -/
theorem test_evaluate {f : ExtFunc} (rhv : Rhv) {s s' : ℕ → SyncTable} {v : Any}
    (h : f.evaluate V c d s = .ok v s') :
    if f.fits rhv then ∃ b, rhv.test v = .ok b else rhv.test v = .error .badAnyCast := by
  cases f with
  | count type =>
    obtain ⟨n, s₁, -, hv⟩ := bind_ok.1 h
    simp only [pure_apply, EStateM.Result.ok.injEq] at hv
    rw [← hv.1]
    cases rhv <;> simp [fits, Rhv.test]
  | countPercent type group =>
    obtain ⟨n, s₁, -, hv⟩ := bind_ok.1 h
    obtain ⟨m, s₂, -, hv⟩ := bind_ok.1 hv
    simp only [pure_apply, EStateM.Result.ok.injEq] at hv
    rw [← hv.1]
    cases rhv <;> simp [fits, Rhv.test]
  | isSyncd obj =>
    obtain ⟨timeStr, s₁, -, hv⟩ := bind_ok.1 h
    have hbool : ∃ b, v = .bool b := by
      rcases hl : V.lex.toUInt64 timeStr with _ | time <;>
        simp only [hl, bind_apply, get_apply, modify_apply, pure_apply,
          EStateM.Result.ok.injEq] at hv
      · exact ⟨true, hv.1.symm⟩
      · exact ⟨_, hv.1.symm⟩
    obtain ⟨b, rfl⟩ := hbool
    cases rhv <;> simp [fits, Rhv.test]

end ExtFunc

theorem Typed.mono {b b' : Bool} {e : Err} (h : Typed b e) (hb : b = false → b' = false) :
    Typed b' e := ⟨h.1, fun he => hb (h.2 he)⟩

section Evaluate

variable (V : View C) (order : List C) (value domain : Domain)

/-- A function that does not fit its literal throws when it returns. -/
theorem misfit_throws {c : C} {f : ExtFunc} {rhv : Rhv} (hf : f.fits rhv = false) {s : EvalState}
    {v : Any} {sync : ℕ → SyncTable}
    (h : f.evaluate V (V.conds c) (domain.at (order.idxOf c)) s.sync = .ok v sync) :
    ∃ s', (BooleanCond.func c f rhv).evaluate V order value domain s = .error .badAnyCast s' := by
  have htest := ExtFunc.test_evaluate V (V.conds c) _ rhv h
  rw [hf, if_neg (by simp)] at htest
  simp only [BooleanCond.evaluate, bind_apply, modify_apply, zoom, h, htest]
  exact ⟨_, rfl⟩

/-- A function term throws what its function throws, and `bad_any_cast` if it does not fit. -/
theorem throws_func (c : C) (f : ExtFunc) (rhv : Rhv) :
    Throws (Typed (f.fits rhv)) ((BooleanCond.func c f rhv).evaluate V order value domain) := by
  intro s e s' h
  obtain h | ⟨⟨⟩, s₁, -, h⟩ := bind_error.1 h
  · simp at h
  rcases bind_error.1 h with h | ⟨v, s₂, hv, h⟩
  · have hthrown := throws_zoom (ExtFunc.throws_evaluate V _ _ f) _ _ _ h
    exact hthrown.mono (by simp)
  · unfold zoom at hv
    rcases hf : f.evaluate V (V.conds c) (domain.at (order.idxOf c)) s₁.sync with
      ⟨v', sync⟩ | e' <;> rw [hf] at hv
    · simp only [EStateM.Result.ok.injEq] at hv
      have htest := ExtFunc.test_evaluate V (V.conds c) _ rhv hf
      rw [hv.1] at htest
      cases hfits : f.fits rhv with
      | true =>
        rw [hfits, if_pos rfl] at htest
        obtain ⟨b, hb⟩ := htest
        simp [hb] at h
      | false =>
        rw [hfits, if_neg (by simp)] at htest
        simp only [htest, orThrow_error, EStateM.Result.error.injEq] at h
        rw [← h.1]
        exact ⟨by decide, fun _ => rfl⟩
    · simp at hv

mutual

theorem throws_typed : ∀ b : BooleanCond C,
    Throws (Typed b.wellTyped) (b.evaluate V order value domain)
  | .expr e => throws_typedOr e
  | .cond _ => throws_bind (throws_modify _) fun _ => throws_pure _
  | .func c f rhv => throws_func V order value domain c f rhv

theorem throws_typedAnd : ∀ bs : List (BooleanCond C),
    Throws (Typed (BooleanCond.wellTypedAnd bs)) (BooleanCond.evaluateAnd V order value domain bs)
  | [] => throws_pure _
  | b :: bs => by
    have hb : Throws (Typed (BooleanCond.wellTypedAnd (b :: bs)))
        (b.evaluate V order value domain) :=
      (throws_typed b).mono fun e he => he.mono fun h => by simp [BooleanCond.wellTypedAnd, h]
    have hbs : Throws (Typed (BooleanCond.wellTypedAnd (b :: bs)))
        (BooleanCond.evaluateAnd V order value domain bs) :=
      (throws_typedAnd bs).mono fun e he => he.mono fun h => by
        simp [BooleanCond.wellTypedAnd, h]
    refine throws_bind hb fun r => ?_
    cases r with
    | true => exact hbs
    | false => exact throws_pure _

theorem throws_typedOr : ∀ e : List (List (BooleanCond C)),
    Throws (Typed (BooleanCond.wellTypedOr e)) (BooleanCond.evaluateOr V order value domain e)
  | [] => throws_pure _
  | a :: as => by
    have ha : Throws (Typed (BooleanCond.wellTypedOr (a :: as)))
        (BooleanCond.evaluateAnd V order value domain a) :=
      (throws_typedAnd a).mono fun e he => he.mono fun h => by simp [BooleanCond.wellTypedOr, h]
    have has : Throws (Typed (BooleanCond.wellTypedOr (a :: as)))
        (BooleanCond.evaluateOr V order value domain as) :=
      (throws_typedOr as).mono fun e he => he.mono fun h => by
        simp [BooleanCond.wellTypedOr, h]
    refine throws_bind ha fun r => ?_
    cases r with
    | true => exact throws_pure _
    | false => exact has

end

end Evaluate

/-! ## Evaluating a rule -/

namespace Rule

variable (k : RuleConfig C) (V : View C)

theorem throws_booleanEvaluate (now : ℤ) (value domain : Domain) :
    Throws (Typed (BooleanCond.wellTypedOr k.booleanExpr))
      (booleanEvaluate k V now value domain) := by
  intro r e r' h
  rw [booleanEvaluate_apply] at h
  rcases he : k.booleanExpr.evaluate V k.conditions value domain
    ⟨domainCtorNullOf domain.length, r.sync⟩ with ⟨_ | _, s⟩ | ⟨e', s⟩ <;> rw [he] at h
  · simp at h
  · rcases hl : r.alarms.lookup s.alarm with _ | lt <;> simp only [hl] at h
    · simp at h
    · split_ifs at h
  · simp only [EStateM.Result.error.injEq] at h
    exact h.1 ▸ throws_typedOr V k.conditions value domain k.booleanExpr _ _ _ he

theorem throws_recursiveEvaluate (now : ℤ) (domain : Domain) :
    ∀ (l : List ((C × Bool) × CondDomain)) (value : Domain),
      Throws (Typed (BooleanCond.wellTypedOr k.booleanExpr))
        (recursiveEvaluate k V now domain l value)
  | [], value => throws_booleanEvaluate k V now value domain
  | ((c, primitive), d) :: rest, value => by
    have hcells : ∀ ranges, Throws (Typed (BooleanCond.wellTypedOr k.booleanExpr))
        ((cellsOf ranges).anyM fun v => recursiveEvaluate k V now domain rest (value ++ [v])) :=
      fun ranges => throws_anyM fun v _ => throws_recursiveEvaluate now domain rest _
    unfold recursiveEvaluate
    cases condDomainIsNull d with
    | true => exact throws_throw_bind ⟨by decide, by simp⟩ _
    | false =>
      cases primitive with
      | true =>
        refine throws_bind (throws_orThrow fun e he => ?_) hcells
        rw [ExtFunc.condRange_error he]
        exact ⟨ExtFunc.unknow_ne_range, by simp⟩
      | false => exact hcells _

/-- Evaluating a rule throws no error of types if each of its functions fits its literal, and a
function that does not fit throws one whenever it returns. -/
theorem evaluate_typed (now : ℤ) :
    Throws (Typed (BooleanCond.wellTypedOr k.booleanExpr)) (evaluate k V now) ∧
    ∀ (c : C) (f : ExtFunc) (rhv : Rhv), f.fits rhv = false → ∀ (value domain : Domain)
      (s : EvalState) (v : Any) (sync : ℕ → SyncTable),
      f.evaluate V (V.conds c) (domain.at (k.conditions.idxOf c)) s.sync = .ok v sync →
      ∃ s', (BooleanCond.func c f rhv).evaluate V k.conditions value domain s =
        .error .badAnyCast s' := by
  refine ⟨throws_get_bind fun r e r' h => ?_, fun c f rhv hf value domain s v sync hv =>
    misfit_throws V k.conditions value domain hf hv⟩
  cases hen : r.enabled with
  | false => simp [hen] at h
  | true =>
    simp only [hen] at h
    refine throws_anyM (fun domain _ => ?_) r e r' h
    cases domainIsNull domain with
    | true => exact throws_throw_bind ⟨by decide, by simp⟩ _
    | false => exact throws_recursiveEvaluate k V now domain _ _

end Rule

/-! ## A count compared with nothing -/

/-- The condition `a` and the rule `count(a)`. -/
def untypedConfig : Config Unit Unit where
  lex := ⟨fun _ => none, fun _ => none⟩
  cmap := [()]
  rmap := [()]
  cond _ := { name := "a", severity := .debug, anySrc := true, e := Regex.literal "a" }
  rule _ := .plain "r" [[.func () (.count .none) .none]] [] "hit" [] (Eq.refl true)
  mem_cmap := mem_unit
  cmap_nodup := unit_nodup
  mem_rmap := mem_unit
  rmap_nodup := unit_nodup
  condName_inj _ _ _ := rfl
  ruleName_inj _ _ _ := rfl

/-- Evaluating the rule throws `bad_any_cast`. -/
theorem count_untyped : Reachable untypedConfig untypedConfig.init ∧
    ∃ rl, Rule.evaluate (untypedConfig.rule ()) (untypedConfig.view untypedConfig.init) 0
      (untypedConfig.init.rules ()) = .error .badAnyCast rl :=
  ⟨.refl, _, rfl⟩

end MfExtensions
