import MfExtensions.Proofs.Alarms
import MfExtensions.Proofs.Bounds

/-!
# The names of an alarm key

A key holds positions in the index maps of the rule's conditions. The positions it is recorded with
are in the maps (`booleanEvaluate_named`) and a map that only gets new names keeps the names of the
old positions (`nameAt_insert`), so a key keeps its names until one of its conditions is reset while
the key survives (`keys_named`).
-/

namespace MfExtensions

open Exec Relation

variable {C R : Type} [DecidableEq C] [LinearOrder R]

/-! ## Names -/

/-- The name of an index; a negative one, `D_ANY` or `D_NIL`, as it is. -/
def IdxMap.nameAt (m : IdxMap) (i : ℤ) : ℤ ⊕ Option String :=
  if i < 0 then .inl i else .inr ((m.entries.find? fun e => (e.2 : ℤ) = i).map Prod.fst)

/-- The source and target names a key of the rule stands for. -/
def RuleConfig.keyNames (k : RuleConfig C) (maps : C → IdxMap × IdxMap) (key : Domain) :
    List ((ℤ ⊕ Option String) × (ℤ ⊕ Option String)) :=
  k.conditions.map fun c => (IdxMap.nameAt (maps c).1 (key.at (k.conditions.idxOf c)).1,
    IdxMap.nameAt (maps c).2 (key.at (k.conditions.idxOf c)).2)

/-- The map has the names of `m` at their indices, and maybe more. -/
def IdxMap.Grows (m m' : IdxMap) : Prop :=
  m.size ≤ m'.size ∧ ∀ i : ℤ, i < m.size → nameAt m' i = nameAt m i

namespace IdxMap

theorem grows_refl (m : IdxMap) : Grows m m := ⟨le_rfl, fun _ _ => rfl⟩

theorem nameAt_insert {m : IdxMap} {name : String} {i : ℤ} (hi : i < m.size) :
    nameAt (m.insert name m.size) i = nameAt m i := by
  unfold nameAt OrdMap.insert
  rw [OrdMap.find?_insertEntry]
  simp only [decide_eq_false_iff_not]
  omega

theorem grows_findIndex (m : IdxMap) (per : Bool) (glob name : String) :
    Grows m (Hitmap.findIndex per glob m name).1 := by
  rcases Hitmap.findIndex_cases per glob m name with ⟨-, h⟩ | ⟨-, n, hn, h⟩ <;> rw [h]
  · exact grows_refl m
  · exact ⟨by rw [OrdMap.size_insert hn]; omega, fun i hi => nameAt_insert hi⟩

end IdxMap

namespace Hitmap

/-- An entry that is in the maps keeps its place and its names. -/
structure Keeps (h h' : Hitmap) (x : CondDomain) : Prop where
  bounded : Bounded h x → Bounded h' x
  names : Bounded h x → (IdxMap.nameAt h'.srcIdx x.1, IdxMap.nameAt h'.tgtIdx x.2) =
    (IdxMap.nameAt h.srcIdx x.1, IdxMap.nameAt h.tgtIdx x.2)

theorem keeps_of_grows {h h' : Hitmap} (hs : IdxMap.Grows h.srcIdx h'.srcIdx)
    (ht : IdxMap.Grows h.tgtIdx h'.tgtIdx) (x : CondDomain) : Keeps h h' x := by
  refine ⟨fun hx => ⟨⟨hx.1.1, ?_⟩, hx.2.1, ?_⟩, fun hx => ?_⟩
  · exact hx.1.2.trans_le (Int.ofNat_le.2 hs.1)
  · exact hx.2.2.trans_le (Int.ofNat_le.2 ht.1)
  · rw [hs.2 x.1 hx.1.2, ht.2 x.2 hx.2.2]

/-- The entry has no index. -/
def NoIndex (x : CondDomain) : Prop := x.1 < 0 ∧ x.2 < 0

theorem keeps_of_noIndex (h h' : Hitmap) {x : CondDomain} (hx : NoIndex x) : Keeps h h' x := by
  refine ⟨fun hb => ⟨⟨hb.1.1, hx.1.trans_le ?_⟩, hb.2.1, hx.2.trans_le ?_⟩, fun _ => ?_⟩
  · exact Int.natCast_nonneg _
  · exact Int.natCast_nonneg _
  · simp only [IdxMap.nameAt, hx.1, hx.2, if_true]

end Hitmap

/-! ## The keys a rule records -/

theorem bounded_findArg {h : Hitmap} (hw : h.WF) (src tgt : String) :
    Bounded h (h.findArg src .source, h.findArg tgt .target) := by
  have hfind : ∀ (name : String) (a : ArgT), (h.args a).Numbered →
      IdxBounded (h.args a).size (h.findArg name a) := by
    intro name a hm
    unfold Hitmap.findArg
    rcases hf : (h.args a).find? name with _ | i
    · exact idxBounded_nil _
    · refine ⟨?_, Int.ofNat_lt.2 (hm.lt _ (OrdMap.find?_eq_some_iff.1 hf))⟩
      simp only [dNil]
      omega
  exact ⟨hfind src .source hw.src, hfind tgt .target hw.tgt⟩

omit [DecidableEq C] in
theorem bounded_cell {V : View C} {c : C} {d v : CondDomain} (hd : Bounded (V.conds c).hitmap d)
    (hn : condDomainIsNull d = false) (hv : v ∈ Rule.cells V ((c, true), d)) :
    Bounded (V.conds c).hitmap v := by
  rw [Rule.mem_cells V c hn] at hv
  simp only [Bounded, IdxBounded, dNil] at *
  split_ifs at hv <;> omega

section Evaluate

variable {V : View C} {order : List C} {value domain : Domain}

mutual

theorem evaluate_bounded (hw : ∀ c, (V.conds c).hitmap.WF)
    (hv : value.Bounded V.conds order) (hd : domain.Bounded V.conds order) :
    ∀ b : BooleanCond C, (∀ p ∈ b.leaves, p.1 ∈ order) →
    Moves (fun s s' : EvalState => s.alarm.Bounded V.conds order → s'.alarm.Bounded V.conds order)
      (b.evaluate V order value domain)
  | .expr e, h => evaluateOr_bounded hw hv hd e h
  | .cond c, h => by
    have hP := Pre.keeps fun s : EvalState => s.alarm.Bounded V.conds order
    have hc : c ∈ order := h (c, none) (by simp [BooleanCond.leaves])
    refine moves_bind hP (moves_modify fun s hs => ?_) fun _ => moves_pure hP _
    split_ifs
    · exact hs.set (hv c hc)
    · exact hs
  | .func c f rhv, h => by
    have hP := Pre.keeps fun s : EvalState => s.alarm.Bounded V.conds order
    have hc : c ∈ order := h (c, some f) (by simp [BooleanCond.leaves])
    refine moves_bind hP (moves_modify fun s hs => ?_) fun _ => ?_
    · refine hs.set ?_
      unfold ExtFunc.alarmEntry
      split_ifs
      · exact hd c hc
      · exact bounded_findArg (hw c) _ _
    · exact moves_bind hP (fun s => by rw [final_zoom]; exact id) fun v => moves_orThrow hP _

theorem evaluateAnd_bounded (hw : ∀ c, (V.conds c).hitmap.WF)
    (hv : value.Bounded V.conds order) (hd : domain.Bounded V.conds order) :
    ∀ bs : List (BooleanCond C), (∀ p ∈ BooleanCond.leavesAnd bs, p.1 ∈ order) →
    Moves (fun s s' : EvalState => s.alarm.Bounded V.conds order → s'.alarm.Bounded V.conds order)
      (BooleanCond.evaluateAnd V order value domain bs)
  | [], _ => moves_pure (Pre.keeps _) _
  | b :: bs, h => by
    simp only [BooleanCond.leavesAnd, List.mem_append] at h
    refine moves_bind (Pre.keeps _) (evaluate_bounded hw hv hd b fun p hp => h p (.inl hp))
      fun r => ?_
    cases r with
    | true => exact evaluateAnd_bounded hw hv hd bs fun p hp => h p (.inr hp)
    | false => exact moves_pure (Pre.keeps _) _

theorem evaluateOr_bounded (hw : ∀ c, (V.conds c).hitmap.WF)
    (hv : value.Bounded V.conds order) (hd : domain.Bounded V.conds order) :
    ∀ e : List (List (BooleanCond C)), (∀ p ∈ BooleanCond.leavesOr e, p.1 ∈ order) →
    Moves (fun s s' : EvalState => s.alarm.Bounded V.conds order → s'.alarm.Bounded V.conds order)
      (BooleanCond.evaluateOr V order value domain e)
  | [], _ => moves_pure (Pre.keeps _) _
  | a :: as, h => by
    simp only [BooleanCond.leavesOr, List.mem_append] at h
    refine moves_bind (Pre.keeps _) (evaluateAnd_bounded hw hv hd a fun p hp => h p (.inl hp))
      fun r => ?_
    cases r with
    | true => exact moves_pure (Pre.keeps _) _
    | false => exact evaluateOr_bounded hw hv hd as fun p hp => h p (.inr hp)

end

end Evaluate

namespace Rule

/-- The keys of the rule's alarms are those reported, each with the names it was reported with. -/
structure KeysNamed (conds : C → Condition) (k : RuleConfig C) (r : Rule C) : Prop where
  domains : ∀ d ∈ r.domains, d.Bounded conds k.conditions
  recorded : r.alarms.map Prod.fst = r.reports.map Prod.fst
  bounded : ∀ p ∈ r.reports, p.1.Bounded conds k.conditions
  named : ∀ p ∈ r.reports, k.keyNames p.2 p.1 = k.keyNames (k.maps conds) p.1

variable {k : RuleConfig C} {conds conds' : C → Condition} {r : Rule C}

theorem KeysNamed.of_keeps (h : r.KeysNamed conds k)
    (hd : ∀ d ∈ r.domains, ∀ c ∈ k.conditions,
      Hitmap.Keeps (conds c).hitmap (conds' c).hitmap (d.at (k.conditions.idxOf c)))
    (hr : ∀ p ∈ r.reports, ∀ c ∈ k.conditions,
      Hitmap.Keeps (conds c).hitmap (conds' c).hitmap (p.1.at (k.conditions.idxOf c))) :
    r.KeysNamed conds' k := by
  refine ⟨fun d hm c hc => (hd d hm c hc).bounded (h.domains d hm c hc), h.recorded,
    fun p hm c hc => (hr p hm c hc).bounded (h.bounded p hm c hc), fun p hm => ?_⟩
  rw [h.named p hm]
  refine List.map_congr_left fun c hc => ?_
  simp only [RuleConfig.maps, hc, if_true]
  exact ((hr p hm c hc).names (h.bounded p hm c hc)).symm

variable {V : View C}

/-- The key of an assignment is in the maps. -/
theorem key_bounded (hw : ∀ c, (V.conds c).hitmap.WF) (hwf : r.WF k) (h : r.KeysNamed V.conds k)
    {p : Domain × Domain} (hp : p ∈ tries k V r) {sync : ℕ → SyncTable} {s : EvalState}
    (hs : k.booleanExpr.evaluate V k.conditions p.2 p.1 ⟨domainCtorNullOf p.1.length, sync⟩ =
      .ok true s) : s.alarm.Bounded V.conds k.conditions := by
  obtain ⟨d, hd, hm⟩ := List.mem_flatMap.1 hp
  obtain ⟨value, hvalue, rfl⟩ := List.mem_map.1 hm
  have hdb := h.domains d hd
  have hproper := hwf.proper d hd
  have hvb : value.Bounded V.conds k.conditions := by
    intro c hc
    obtain ⟨primitive, -, hcell⟩ := assigned k V hproper.length hvalue hc
    have hn := hproper.at_not_null (List.idxOf_lt_length_of_mem hc)
    cases primitive with
    | true => exact bounded_cell (hdb c hc) hn hcell
    | false =>
      rw [List.mem_singleton.1 hcell]
      exact bounded_null
  refine (evaluateOr_bounded hw hvb hdb k.booleanExpr fun p hp => ?_).of_ok hs
    Domain.bounded_nullOf
  exact k.mem_conditions.2 (List.mem_map_of_mem hp)

theorem KeysNamed.evaluate (hw : ∀ c, (V.conds c).hitmap.WF) (hwf : r.WF k)
    (h : r.KeysNamed V.conds k) (now : ℤ) :
    (final (Rule.evaluate k V now) r).KeysNamed V.conds k := by
  rcases Bool.eq_false_or_eq_true r.enabled with hen | hen
  swap
  · have hoff : Rule.evaluate k V now r = .ok false r := by simp [Rule.evaluate, bind_apply, hen]
    rw [final_ok hoff]
    exact h
  have hP := Pre.keeps fun r' : Rule C => r'.KeysNamed V.conds k
  have htries : Moves (fun r r' : Rule C => r.KeysNamed V.conds k → r'.KeysNamed V.conds k)
      ((tries k V r).anyM fun p => booleanEvaluate k V now p.2 p.1) := by
    refine moves_anyM hP fun p hp => moves_booleanEvaluate k V now ?_ ?_ ?_
    · exact fun r' sync h => ⟨h.domains, h.recorded, h.bounded, h.named⟩
    · intro r' s hs h'
      have hkey := key_bounded hw hwf h hp hs
      refine ⟨h'.domains, ?_, ?_, ?_⟩
      · simp only [raise, List.map_append, h'.recorded, List.map_cons, List.map_nil]
      · exact fun q hq => (List.mem_append.1 hq).elim (h'.bounded q)
          fun hq => List.mem_singleton.1 hq ▸ hkey
      · exact fun q hq => (List.mem_append.1 hq).elim (h'.named q)
          fun hq => List.mem_singleton.1 hq ▸ rfl
    · exact fun r' sync key h => ⟨h.domains, h.recorded, h.bounded, h.named⟩
  have heq : final (Rule.evaluate k V now) r =
      final ((tries k V r).anyM fun p => booleanEvaluate k V now p.2 p.1) r := by
    unfold final
    rw [evaluate_eq k V now hen hwf.noNull]
  rw [heq]
  exact htries r h

end Rule

/-! ## The keys of a run -/

namespace Engine

variable (cfg : Config C R)

/-- No stored domain has an index of a condition that is reset, and no key that the reset leaves. -/
def KeyReset : ResetPred C R := fun cs rs e => ∀ r, ∀ c ∈ (cfg.rule r).conditions, cs c = true →
  (∀ d ∈ (e.rules r).domains, Hitmap.NoIndex (d.at ((cfg.rule r).conditions.idxOf c))) ∧
  (rs r = false → ∀ p ∈ (e.rules r).alarms,
    Hitmap.NoIndex (p.1.at ((cfg.rule r).conditions.idxOf c)))

structure KeysNamed (e : Engine C R) : Prop where
  wf : e.WF cfg
  rules : ∀ r, (e.rules r).KeysNamed e.conds (cfg.rule r)

variable {cfg} {e e' : Engine C R}

omit [LinearOrder R] in
theorem KeysNamed.init (hw : cfg.init.WF cfg) : KeysNamed cfg cfg.init := by
  refine ⟨hw, fun r => ⟨fun d hd => ?_, rfl, by simp [Config.init, RuleConfig.init],
    by simp [Config.init, RuleConfig.init]⟩⟩
  simp only [Config.init, RuleConfig.init] at hd
  split_ifs at hd
  · rw [List.mem_singleton.1 hd]
    exact Domain.bounded_ctorAny
  · simp at hd

theorem keeps_matchMsg (L : LexicalCast) (k : CondConfig) (msg : Msg) (c : Condition)
    (x : CondDomain) :
    Hitmap.Keeps c.hitmap (final (Condition.matchMsg L k msg) c).hitmap x := by
  have hrefl : Hitmap.Keeps c.hitmap c.hitmap x := ⟨id, fun _ => rfl⟩
  rcases Condition.matchMsg_cases L k msg c with
    ⟨c', hkept, hm | ⟨err, hm⟩⟩ | ⟨c₁, hitmap, change, te, -, hcap, hm⟩
  · rw [final_ok hm, hkept.1]
    exact hrefl
  · rw [final_error hm, hkept.1]
    exact hrefl
  · obtain ⟨hs, ht, -, -⟩ := Hitmap.capture_idx hcap
    rw [final_ok hm]
    refine Hitmap.keeps_of_grows ?_ ?_ x
    · simp only [hs]
      exact IdxMap.grows_findIndex _ _ _ _
    · simp only [ht]
      exact IdxMap.grows_findIndex _ _ _ _

omit [LinearOrder R] in
/-- What one condition keeps of its indices, all conditions do. -/
theorem keeps_update {c : C} {d : Condition}
    (h : ∀ x, Hitmap.Keeps (e.conds c).hitmap d.hitmap x) (c' : C) (x : CondDomain) :
    Hitmap.Keeps (e.conds c').hitmap (Function.update e.conds c d c').hitmap x := by
  rcases eq_or_ne c' c with rfl | hne
  · rw [Function.update_self]
    exact h x
  · rw [Function.update_of_ne hne]
    exact ⟨id, fun _ => rfl⟩

omit [LinearOrder R] in
/-- A reset that spares the indices in use. -/
theorem KeysNamed.clear {cs : C → Bool} {rs : R → Bool} (h : KeysNamed cfg e)
    (hok : KeyReset cfg cs rs e) (r : R) :
    ((Engine.clear cfg cs rs e).rules r).KeysNamed (Engine.clear cfg cs rs e).conds
      (cfg.rule r) := by
  have hkeeps : ∀ c (x : CondDomain), (cs c = true → Hitmap.NoIndex x) →
      Hitmap.Keeps (e.conds c).hitmap ((Engine.clear cfg cs rs e).conds c).hitmap x := by
    intro c x hx
    simp only [Engine.clear]
    split_ifs with hc
    · exact Hitmap.keeps_of_noIndex _ _ (hx hc)
    · exact ⟨id, fun _ => rfl⟩
  have hdomains : ∀ d ∈ (e.rules r).domains, ∀ c ∈ (cfg.rule r).conditions,
      Hitmap.Keeps (e.conds c).hitmap ((Engine.clear cfg cs rs e).conds c).hitmap
        (d.at ((cfg.rule r).conditions.idxOf c)) :=
    fun d hd c hc => hkeeps c _ fun hcs => (hok r c hc hcs).1 d hd
  by_cases hr : rs r = true
  · have heq : (Engine.clear cfg cs rs e).rules r = (e.rules r).reset (cfg.rule r) := if_pos hr
    rw [heq]
    have hreset : ((e.rules r).reset (cfg.rule r)).KeysNamed e.conds (cfg.rule r) :=
      ⟨(h.rules r).domains, rfl, by simp [Rule.reset], by simp [Rule.reset]⟩
    exact hreset.of_keeps hdomains (by simp [Rule.reset])
  · have heq : (Engine.clear cfg cs rs e).rules r = e.rules r := if_neg hr
    rw [heq]
    refine (h.rules r).of_keeps hdomains fun p hp c hc => hkeeps c _ fun hcs => ?_
    have hmem : p.1 ∈ (e.rules r).alarms.map Prod.fst := by
      rw [(h.rules r).recorded]
      exact List.mem_map_of_mem hp
    obtain ⟨q, hq, heq⟩ := List.mem_map.1 hmem
    rw [← heq]
    exact (hok r c hc hcs).2 (Bool.eq_false_iff.2 hr) q hq

/-- A step whose resets spare the indices in use keeps the names of every key. -/
theorem KeysNamed.step (h : KeysNamed cfg e) (hs : Step cfg (KeyReset cfg) e e') :
    KeysNamed cfg e' := by
  have hrules : ∀ (r : R) (x : Rule C), x.KeysNamed e.conds (cfg.rule r) →
      ∀ r', (Function.update e.rules r x r').KeysNamed e.conds (cfg.rule r') := fun r x hx =>
    (Function.forall_update_iff e.rules fun r' x => x.KeysNamed e.conds (cfg.rule r')).2
      ⟨hx, fun r' _ => h.rules r'⟩
  have hconds : ∀ (c : C) (d : Condition), (∀ x, Hitmap.Keeps (e.conds c).hitmap d.hitmap x) →
      ∀ r, (e.rules r).KeysNamed (Function.update e.conds c d) (cfg.rule r) := fun c d hd r =>
    (h.rules r).of_keeps (fun _ _ c' _ => keeps_update hd c' _) fun _ _ c' _ =>
      keeps_update hd c' _
  refine ⟨h.wf.step _ hs, ?_⟩
  cases hs with
  | matched c msg => exact hconds c _ (keeps_matchMsg _ _ _ _)
  | events | emitted | supervised | participants => exact h.rules
  | switched r flag =>
    exact hrules r _ ⟨(h.rules r).domains, (h.rules r).recorded, (h.rules r).bounded,
      (h.rules r).named⟩
  | domain r hr =>
    refine hrules r _ ?_
    obtain ⟨ds, hds, -, -⟩ := (cfg.rule r).domainExpr_evaluate_spec e.conds
    have hb := (cfg.rule r).evaluate_bounded h.wf.conds hds
    rw [final_ok (Rule.evaluateDomain_apply (cfg.rule r) (cfg.view e) hds _)]
    exact ⟨hb, (h.rules r).recorded, (h.rules r).bounded, (h.rules r).named⟩
  | evaluated r now =>
    exact hrules r _ ((h.rules r).evaluate (V := cfg.view e) h.wf.conds (h.wf.rules r) now)
  | delivered ev => exact hconds ev.cond _ fun _ => ⟨id, fun _ => rfl⟩
  | cleared cs rs hok => exact h.clear hok

/-- In a run whose resets spare the indices in use every key of an alarm has the names it was
reported with, and an assignment whose names were not reported raises an alarm. -/
theorem keys_named (h : Run cfg (ResetsOk cfg (KeyReset cfg)) e) (r : R) :
    (e.rules r).alarms.map Prod.fst = (e.rules r).reports.map Prod.fst ∧
    (∀ p ∈ (e.rules r).reports, (cfg.rule r).keyNames p.2 p.1 =
      (cfg.rule r).keyNames ((cfg.rule r).maps e.conds) p.1) ∧
    ∀ now p key, Rule.fires (cfg.rule r) (cfg.view e) (e.rules r).sync p = some key →
      (∀ q ∈ (e.rules r).reports, (cfg.rule r).keyNames q.2 q.1 ≠
        (cfg.rule r).keyNames ((cfg.rule r).maps e.conds) key) →
      ∃ rl, Rule.booleanEvaluate (cfg.rule r) (cfg.view e) now p.2 p.1 (e.rules r) =
        .ok true rl := by
  have hnamed : KeysNamed cfg e := by
    have hsteps := h.steps
    clear h
    induction hsteps with
    | refl => exact KeysNamed.init (Passed.wf .refl)
    | tail _ hs ih => exact ih.step hs
  have hr := hnamed.rules r
  refine ⟨hr.recorded, hr.named, fun now p key hfires hnew => ?_⟩
  obtain ⟨s, hs, rfl⟩ := (Rule.fires_eq_some _ _).1 hfires
  have hkey : (e.rules r).alarms.lookup s.alarm = none := by
    rw [Rule.lookup_alarm_eq_none, hr.recorded]
    intro hm
    obtain ⟨q, hq, heq⟩ := List.mem_map.1 hm
    exact hnew q hq (heq ▸ hr.named q hq)
  rw [Rule.booleanEvaluate_apply, hs]
  simp only [hkey]
  exact ⟨_, rfl⟩

end Engine

/-! ## A key renamed -/

/-- The condition `a`, which distinguishes sources, and two rules `a`. -/
def sharedConfig : Config Unit Bool where
  lex := ⟨fun _ => none, fun _ => none⟩
  cmap := [()]
  rmap := [false, true]
  cond _ := { name := "a", severity := .debug, anySrc := true, e := Regex.literal "a",
              perSource := true }
  rule r := .plain (if r then "s" else "r") [[.cond ()]] [] "hit" [] (Eq.refl true)
  mem_cmap := mem_unit
  cmap_nodup := unit_nodup
  mem_rmap := mem_bools
  rmap_nodup := bools_nodup
  condName_inj _ _ _ := rfl
  ruleName_inj := by decide

/-- The source `x` reports `a`, the first rule is reset, and the source `y` reports `a`. -/
def sharedState : Engine Unit Bool :=
  final (Op.exec sharedConfig (.feed (lossyMsg "y" "a") 0))
    (final (Op.exec sharedConfig (.resetRule "r"))
      (final (Op.exec sharedConfig (.feed (lossyMsg "x" "a") 0)) sharedConfig.init))

/-- The second rule reported `x` and takes `y` for it. -/
theorem key_renamed : Reachable sharedConfig sharedState ∧
    (¬∀ p ∈ (sharedState.rules true).reports, (sharedConfig.rule true).keyNames p.2 p.1 =
      (sharedConfig.rule true).keyNames ((sharedConfig.rule true).maps sharedState.conds) p.1) ∧
    Rule.fires (sharedConfig.rule true) (sharedConfig.view sharedState)
      (sharedState.rules true).sync ([(dAny, dAny)], [(0, 0)]) = some [(0, 0)] ∧
    (∀ q ∈ (sharedState.rules true).reports, (sharedConfig.rule true).keyNames q.2 q.1 ≠
      (sharedConfig.rule true).keyNames ((sharedConfig.rule true).maps sharedState.conds)
        [(0, 0)]) ∧
    value? (Rule.booleanEvaluate (sharedConfig.rule true) (sharedConfig.view sharedState) 0
      [(0, 0)] [(dAny, dAny)]) (sharedState.rules true) = some false := by
  refine ⟨?_, by decide +kernel, by decide +kernel, by decide +kernel, by decide +kernel⟩
  have h₀ : Reachable sharedConfig sharedConfig.init := .refl
  exact ((h₀.step (.feed (lossyMsg "x" "a") 0)).step (.resetRule "r")).step
    (.feed (lossyMsg "y" "a") 0)

/-- The source `x` reports `a`, everything is reset, and the source `y` reports `a`. -/
def sharedReset : Engine Unit Bool :=
  final (Op.exec sharedConfig (.feed (lossyMsg "y" "a") 0))
    (final (Op.exec sharedConfig .reset)
      (final (Op.exec sharedConfig (.feed (lossyMsg "x" "a") 0)) sharedConfig.init))

/-- The key is the one that was reported for `x` before the reset. -/
theorem keys_named_reset : (sharedReset.rules true).reports.map Prod.fst = [[(0, 0)]] ∧
    ∀ p ∈ (sharedReset.rules true).reports, (sharedConfig.rule true).keyNames p.2 p.1 =
      (sharedConfig.rule true).keyNames ((sharedConfig.rule true).maps sharedReset.conds) p.1 := by
  have h₀ : Run sharedConfig (Engine.ResetsOk sharedConfig (Engine.KeyReset sharedConfig))
      sharedConfig.init := .refl
  have h₁ := h₀.step (.feed (lossyMsg "x" "a") 0) (Engine.resetsOk_feed_of_ehs (by decide +kernel))
  have hreset : Engine.ResetsOk sharedConfig (Engine.KeyReset sharedConfig) .reset
      (final (Op.exec sharedConfig (.feed (lossyMsg "x" "a") 0)) sharedConfig.init) := by
    intro cs rs h
    cases h
    unfold Engine.KeyReset Hitmap.NoIndex
    decide +kernel
  have h₂ := h₁.step .reset hreset
  have h₃ : Run sharedConfig _ sharedReset :=
    h₂.step (.feed (lossyMsg "y" "a") 0) (Engine.resetsOk_feed_of_ehs (by decide +kernel))
  exact ⟨by decide +kernel, (Engine.keys_named h₃ true).2.1⟩

end MfExtensions
