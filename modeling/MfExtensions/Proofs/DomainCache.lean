import MfExtensions.Proofs.Bounds
import MfExtensions.Proofs.Feed
import MfExtensions.Proofs.Invariants

/-!
# The cached domains

A `WHERE` clause depends on the index maps it names and on nothing else (`evaluateOr_congr`), so the
domains a rule has stored are those it would compute now as long as no map it names changes without
the rule being notified. A feed notifies the rules of every map it has changed, once every condition
has matched; what breaks the cache is a reset of a map a stored domain was computed from, and a feed
that throws between the two.
-/

namespace MfExtensions

open Exec Relation

variable {C R : Type} [DecidableEq C] [LinearOrder R]

/-! ## What the evaluation depends on -/

omit [DecidableEq C] in
theorem SameMap.findArg {conds conds' : C → Condition} {p : C × ArgT}
    (h : SameMap conds conds' p) (name : String) :
    (conds' p.1).hitmap.findArg name p.2 = (conds p.1).hitmap.findArg name p.2 := by
  unfold Hitmap.findArg
  rw [h]

namespace DomainCond

variable {conds conds' : C → Condition} {order : List C}

theorem literalDomain_congr (str : String) : ∀ {args : List (C × ArgT)},
    (∀ p ∈ args, SameMap conds conds' p) → ∀ domain : Domain,
      literalDomain conds' order str args domain = literalDomain conds order str args domain
  | [], _, _ => rfl
  | (c, a) :: rest, h, domain => by
    have hc := (h (c, a) List.mem_cons_self).findArg str
    have ih := literalDomain_congr str
      fun p hp => h p (List.mem_cons_of_mem (c, a) hp)
    simp only [literalDomain, hc, ih]

theorem chainDomain_congr (name : String) : ∀ {args : List (C × ArgT)},
    (∀ p ∈ args, SameMap conds conds' p) → ∀ domain : Domain,
      chainDomain conds' order name args domain = chainDomain conds order name args domain
  | [], _, _ => rfl
  | (c, a) :: rest, h, domain => by
    have hc := (h (c, a) List.mem_cons_self).findArg name
    have ih := chainDomain_congr name
      fun p hp => h p (List.mem_cons_of_mem (c, a) hp)
    simp only [chainDomain, hc, ih]

theorem chainWorksheet_congr {args : List (C × ArgT)} (str : String)
    (h : ∀ p ∈ args, SameMap conds conds' p) :
    chainWorksheet conds' order args str = chainWorksheet conds order args str := by
  cases args with
  | nil => rfl
  | cons p rest =>
    have hp : (conds' p.1).hitmap.args p.2 = (conds p.1).hitmap.args p.2 :=
      h p List.mem_cons_self
    simp only [chainWorksheet, hp, literalDomain_congr str h,
      chainDomain_congr _ fun q hq => h q (List.mem_cons_of_mem p hq)]

mutual

theorem evaluate_congr : ∀ {b : DomainCond C} {domains : Domains},
    (∀ p ∈ b.args, SameMap conds conds' p) →
      b.evaluate conds' order domains = b.evaluate conds order domains
  | .expr e, domains, h => by rw [evaluate, evaluate, evaluateOr_congr h]
  | .chain as str, domains, h => by
    have h : ∀ p ∈ as, SameMap conds conds' p := h
    rw [evaluate, evaluate, chainWorksheet_congr str h]

theorem evaluateAnd_congr : ∀ {bs : List (DomainCond C)} {domains : Domains},
    (∀ p ∈ argsAnd bs, SameMap conds conds' p) →
      evaluateAnd conds' order bs domains = evaluateAnd conds order bs domains
  | [], _, _ => rfl
  | b :: bs, domains, h => by
    simp only [argsAnd, List.mem_append] at h
    rw [evaluateAnd, evaluateAnd, evaluate_congr fun p hp => h p (.inl hp)]
    exact bind_congr fun ds => by rw [evaluateAnd_congr fun p hp => h p (.inr hp)]

theorem evaluateOr_congr : ∀ {e : List (List (DomainCond C))} {domains : Domains},
    (∀ p ∈ argsOr e, SameMap conds conds' p) →
      evaluateOr conds' order e domains = evaluateOr conds order e domains
  | [], _, _ => rfl
  | a :: as, domains, h => by
    simp only [argsOr, List.mem_append] at h
    rw [evaluateOr, evaluateOr, evaluateAnd_congr fun p hp => h p (.inl hp)]
    exact bind_congr fun ds => by rw [evaluateOr_congr fun p hp => h p (.inr hp)]

end

end DomainCond

/-- The maps of `conds'` have no names that those of `conds` do not have. -/
def FewerNames (conds conds' : C → Condition) : Prop :=
  ∀ (p : C × ArgT) (name : String) (i : ℕ), ((conds' p.1).hitmap.args p.2).find? name = some i →
    ((conds p.1).hitmap.args p.2).find? name = some i

namespace DomainCond

variable {chain : List (C × ArgT) → String → Prop}

omit [DecidableEq C] in
mutual

theorem not_holds (hchain : ∀ as str, as ≠ [] → ¬chain as str) :
    ∀ {b : DomainCond C}, b.grammatical = true → ¬b.Holds chain
  | .expr e, hg => not_holdsOr hchain (e := e) hg
  | .chain as str, hg => by
    simp only [grammatical, Bool.and_eq_true, Bool.not_eq_true', List.isEmpty_eq_false_iff] at hg
    exact hchain as str hg.1

theorem not_holdsAnd (hchain : ∀ as str, as ≠ [] → ¬chain as str) :
    ∀ {bs : List (DomainCond C)}, bs ≠ [] → grammaticalAnd bs = true → ¬HoldsAnd chain bs
  | b :: bs, _, hg => by
    simp only [grammaticalAnd, Bool.and_eq_true] at hg
    exact fun h => not_holds hchain hg.1 h.1

theorem not_holdsOr (hchain : ∀ as str, as ≠ [] → ¬chain as str) :
    ∀ {e : List (List (DomainCond C))}, grammaticalOr e = true → ¬HoldsOr chain e
  | [], _ => id
  | a :: as, hg => by
    simp only [grammaticalOr, Bool.and_eq_true, Bool.not_eq_true', List.isEmpty_eq_false_iff] at hg
    exact fun h => h.elim (not_holdsAnd hchain hg.1.1 hg.1.2) (not_holdsOr hchain hg.2)

end

end DomainCond

section FewerNames

variable {conds conds' : C → Condition} (h : FewerNames conds conds')

include h

omit [DecidableEq C] in
theorem Chain.LastNames.mono {v : C → ℕ × ℕ} {str : String} : ∀ {args : List (C × ArgT)},
    Chain.LastNames conds' v str args → Chain.LastNames conds v str args
  | [], _ => trivial
  | p :: rest, ⟨hin, hlast, hrest⟩ => by
    refine ⟨?_, hlast.imp_right (h p str _), hrest.mono⟩
    obtain ⟨i, hi⟩ := Option.ne_none_iff_exists'.1 hin
    rw [h p str i hi]
    simp

omit [DecidableEq C] in
theorem Chain.Loose.mono {v : C → ℕ × ℕ} {args : List (C × ArgT)} {str : String}
    (hl : Chain.Loose conds' v args str) : Chain.Loose conds v args str := by
  unfold Chain.Loose at hl ⊢
  split_ifs at hl ⊢
  · obtain ⟨name, hname, hall⟩ := hl
    exact ⟨name, hname, fun p hp => h p name _ (hall p hp)⟩
  · exact hl.mono h

end FewerNames

namespace RuleConfig

variable (k : RuleConfig C) {conds conds' : C → Condition}

/-- No domain is computed for a clause that no choice satisfies. -/
theorem evaluate_eq_nil_iff (hw : ∀ c, (conds c).hitmap.WF) :
    k.domainExpr.evaluate conds k.conditions [] = .ok [] ↔
      ∀ v, ¬DomainCond.HoldsOr (Chain.Loose conds v) k.domainExpr := by
  obtain ⟨ds, hds, hp, hu⟩ := k.domainExpr_evaluate_spec conds
  rw [hds, Except.ok.injEq]
  constructor
  · rintro rfl v hv
    exact DomainCond.inUnion_nil v ((hu v).2 hv)
  · refine fun hv => List.eq_nil_iff_forall_not_mem.2 fun d hd => ?_
    obtain ⟨v, hd'⟩ := (k.evaluate_bounded hw hds d hd).exists_contains (hp d hd)
    exact hv v ((hu v).1 ⟨d, hd, hd'⟩)

/-- A clause that no choice satisfies is satisfied by none when names are gone. -/
theorem evaluate_nil_of_fewer (h : FewerNames conds conds') (hw : ∀ c, (conds c).hitmap.WF)
    (hw' : ∀ c, (conds' c).hitmap.WF)
    (hnil : k.domainExpr.evaluate conds k.conditions [] = .ok []) :
    k.domainExpr.evaluate conds' k.conditions [] = .ok [] := by
  rw [k.evaluate_eq_nil_iff hw] at hnil
  rw [k.evaluate_eq_nil_iff hw']
  exact fun v hv => hnil v (DomainCond.HoldsOr.mono k.domainExpr (fun p _ => Chain.Loose.mono h) hv)

theorem evaluate_empty (hw : ∀ c, (conds c).hitmap.WF)
    (hempty : ∀ p : C × ArgT, (conds p.1).hitmap.args p.2 = OrdMap.empty) :
    k.domainExpr.evaluate conds k.conditions [] = .ok [] := by
  rw [k.evaluate_eq_nil_iff hw]
  refine fun v => DomainCond.not_holdsOr (fun as str hne h => ?_) k.domainGrammatical
  obtain ⟨p, rest, rfl⟩ := List.exists_cons_of_ne_nil hne
  unfold Chain.Loose at h
  split_ifs at h
  · obtain ⟨name, -, hall⟩ := h
    have hp := hall p List.mem_cons_self
    simp [Names, hempty p] at hp
  · simp [Chain.LastNames, hempty p] at h

end RuleConfig

/-! ## What keeps the cache -/

namespace Engine

variable (cfg : Config C R)

/-- The reset clears no map that a stored domain was computed from. -/
def CacheReset : ResetPred C R := fun cs _ e => ∀ r, (e.rules r).domains = [] ∨
  ∀ p ∈ (cfg.rule r).domainExpr.args, cs p.1 = true →
    (e.conds p.1).hitmap.args p.2 = OrdMap.empty

/-- The resets of the call keep the cache; and if it is a feed in which a condition throws, no map
of a clause has changed by then. -/
def CacheOk (op : Op) (e : Engine C R) : Prop :=
  ResetsOk cfg (CacheReset cfg) op e ∧
    ∀ msg now, op = .feed msg now → ∀ err e', matchConds cfg msg cfg.cmap {} e = .error err e' →
      ∀ r, ∀ p ∈ (cfg.rule r).domainExpr.args, SameMap e.conds e'.conds p

/-- The domains of every rule with a `WHERE` clause are those of the maps. -/
structure Cached (e : Engine C R) : Prop where
  wf : e.WF cfg
  fresh : ∀ r, (cfg.rule r).domainExpr ≠ [] →
    (cfg.rule r).domainExpr.evaluate e.conds (cfg.rule r).conditions [] = .ok (e.rules r).domains

variable {cfg} {e e' : Engine C R}

omit [LinearOrder R] in
theorem Cached.of_sameMap (h : Cached cfg e) (hw : e'.WF cfg)
    (hrules : ∀ r, (e'.rules r).domains = (e.rules r).domains)
    (hmaps : ∀ r, ∀ p ∈ (cfg.rule r).domainExpr.args, SameMap e.conds e'.conds p) :
    Cached cfg e' := by
  refine ⟨hw, fun r hk => ?_⟩
  rw [hrules r, ← h.fresh r hk]
  exact DomainCond.evaluateOr_congr (hmaps r)

omit [LinearOrder R] in
theorem Cached.init (hw : cfg.init.WF cfg) : Cached cfg cfg.init := by
  refine ⟨hw, fun r hk => ?_⟩
  have hemp : (cfg.rule r).domainExpr.isEmpty = false := by simpa using hk
  have hnil : (cfg.init.rules r).domains = [] := by
    simp only [Config.init, RuleConfig.init, hemp, Bool.false_eq_true, if_false]
  rw [hnil]
  exact (cfg.rule r).evaluate_empty hw.conds fun p => ite_self _

omit [LinearOrder R] in
theorem clear_args (cs : C → Bool) (rs : R → Bool) (p : C × ArgT) :
    ((clear cfg cs rs e).conds p.1).hitmap.args p.2 =
      if cs p.1 then OrdMap.empty else (e.conds p.1).hitmap.args p.2 := by
  simp only [clear]
  split_ifs
  · simp only [Condition.reset, Hitmap.reset, Hitmap.args, ite_self]
  · rfl

theorem Cached.clear {cs : C → Bool} {rs : R → Bool} (hok : CacheReset cfg cs rs e)
    (h : Cached cfg e) : Cached cfg (clear cfg cs rs e) := by
  have hw : (Engine.clear cfg cs rs e).WF cfg :=
    h.wf.step anyReset (.cleared cs rs trivial)
  have hdomains : ∀ r, ((Engine.clear cfg cs rs e).rules r).domains = (e.rules r).domains := by
    intro r
    simp only [Engine.clear]
    split_ifs <;> rfl
  refine ⟨hw, fun r hk => ?_⟩
  rw [hdomains r]
  rcases hok r with hnil | hmaps
  · have hfewer : FewerNames e.conds (Engine.clear cfg cs rs e).conds := by
      intro p name i hi
      rw [clear_args] at hi
      split_ifs at hi
      · simp at hi
      · exact hi
    rw [hnil]
    refine (cfg.rule r).evaluate_nil_of_fewer hfewer h.wf.conds hw.conds ?_
    rw [h.fresh r hk, hnil]
  · rw [← h.fresh r hk]
    refine DomainCond.evaluateOr_congr fun p hp => ?_
    unfold SameMap
    rw [clear_args]
    split_ifs with hc
    · exact (hmaps p hp hc).symm
    · rfl

theorem Cached.raiseAlarm (now : ℤ) (r : R) :
    Moves (fun e e' => Cached cfg e → Cached cfg e') (raiseAlarm cfg now r) := by
  refine moves_raiseAlarm cfg (Pre.keeps _) (fun e h => ?_) fun o e h => ?_
  · rw [final_onRule]
    have hframe := Rule.evaluate_frame (cfg.rule r) (cfg.view e) now (e.rules r)
    exact h.of_sameMap (h.wf.step anyReset (.evaluated r now))
      (update_frame (congrArg Prod.fst hframe)) fun _ _ _ => rfl
  · exact h.of_sameMap (h.wf.step anyReset (.emitted _)) (fun _ => rfl) fun _ _ _ => rfl

theorem Cached.evaluateRules {now : ℤ} {rs : List R} (h : Cached cfg e)
    (hok : PassResets cfg (CacheReset cfg) now rs e) :
    Cached cfg (final (evaluateRules cfg now rs) e) :=
  evaluateRules_keeps (fun r => Cached.raiseAlarm now r)
    (fun _ log h => h.of_sameMap (h.wf.step anyReset (.emitted log)) (fun _ => rfl)
      fun _ _ _ => rfl)
    (fun _ _ _ hok h => h.clear hok) rs e hok h

omit [LinearOrder R] in
theorem deliver_args : ∀ (evs : List (TimingEvent C)) (conds : C → Condition) (status : List C)
    (p : C × ArgT), SameMap conds (deliver cfg evs conds status).1 p
  | [], _, _, _ => rfl
  | ev :: evs, conds, status, p => by
    refine (deliver_args evs _ _ p).trans ?_
    refine update_frame (f := fun x : Condition => x.hitmap.args p.2) ?_ p.1
    rfl

theorem Cached.eventWorker {now tod : ℤ} (h : Cached cfg e)
    (hok : ResetsOk cfg (CacheReset cfg) (.eventWorker now tod) e) :
    Cached cfg (final (eventWorker cfg now tod) e) := by
  have hdue : Cached cfg (deliverDue cfg now e).1 :=
    h.of_sameMap (h.wf.steps anyReset (deliverDue_steps now e)) (fun _ => rfl)
      fun _ p _ => deliver_args _ _ _ p
  exact hdue.evaluateRules hok

theorem Cached.feed {msg : Msg} {now : ℤ} (h : Cached cfg e)
    (hok : CacheOk cfg (.feed msg now) e) : Cached cfg (final (feed cfg msg now) e) := by
  unfold Engine.feed
  have hsteps := matchConds_steps cfg anyReset msg cfg.cmap {}
  rcases h₁ : matchConds cfg msg cfg.cmap {} e with ⟨l, e₁⟩ | ⟨err, e₁⟩
  · have hrules : e₁.rules = e.rules := ((matchConds_rulesKept cfg msg _ _).of_ok h₁).1
    have hw₁ : e₁.WF cfg := h.wf.steps anyReset (hsteps.of_ok h₁)
    obtain ⟨ds, hds⟩ := exists_domains cfg e₁.conds
    have h₂ := evaluateRulesDomain_ok cfg (notifyDomain cfg l) e₁ hds
    have hcached : Cached cfg (setDomains (notifyDomain cfg l) ds e₁) := by
      have hsteps₂ := (evaluateRulesDomain_steps cfg anyReset l).of_ok h₂
      refine ⟨hw₁.steps anyReset hsteps₂, fun r hk => ?_⟩
      simp only [setDomains]
      split_ifs with hr
      · exact hds r
      · -- no map of the clause has changed, or the rule would have been notified
        rw [hrules, ← h.fresh r hk]
        exact DomainCond.evaluateOr_congr fun p hp => (matchConds_maps cfg h₁ p).2 fun hl =>
          hr (mem_notifyDomain cfg hp hl)
    rw [final_bind_ok h₁, final_bind_ok h₂]
    exact hcached.evaluateRules (hok.1 l e₁ _ h₁ h₂)
  · rw [final_bind_error h₁]
    have hwf := h.wf.steps anyReset (hsteps.of_error h₁)
    refine h.of_sameMap hwf (fun r => ?_) (hok.2 msg now rfl err e₁ h₁)
    rw [((matchConds_rulesKept cfg msg _ _).of_error h₁).1]

theorem Cached.exec {op : Op} (h : Cached cfg e) (hok : CacheOk cfg op e) :
    Cached cfg (final (op.exec cfg) e) := by
  have hreset : op.IsReset →
      (∀ cs rs, op.resets cfg = some (cs, rs) → CacheReset cfg cs rs e) →
      Cached cfg (final (op.exec cfg) e) := by
    intro hop hok
    rw [final_reset_exec cfg e hop]
    rcases ho : op.resets cfg with _ | ⟨cs, rs⟩
    · exact h
    · exact h.clear (hok cs rs ho)
  cases op with
  | feed msg now => exact h.feed hok
  | eventWorker now tod => exact h.eventWorker hok.1
  | enableRule name flag =>
    refine moves_enableRule cfg (Pre.keeps (Cached cfg)) name (fun r e h => ?_) e h
    exact h.of_sameMap (h.wf.step anyReset (.switched r flag)) (update_frame rfl) fun _ _ _ => rfl
  | enableEHS flag =>
    exact h.of_sameMap (h.wf.step anyReset (.supervised flag)) (fun _ => rfl) fun _ _ _ => rfl
  | participants op =>
    refine moves_onParticipants (Pre.keeps (Cached cfg)) op (fun p e h => ?_) e h
    exact h.of_sameMap (h.wf.step anyReset (.participants p)) (fun _ => rfl) fun _ _ _ => rfl
  | resetRule | resetRules | resetCond | resetConds | reset => exact hreset trivial hok.1

/-- In a run of calls that keep the cache, the domains stored for a rule with a `WHERE` clause are
those of the maps, and their indices are in the maps. -/
theorem domains_cached (h : Run cfg (CacheOk cfg) e) {r : R}
    (hk : (cfg.rule r).domainExpr ≠ []) :
    (cfg.rule r).domainExpr.evaluate e.conds (cfg.rule r).conditions [] =
      .ok (e.rules r).domains ∧
    ∀ d ∈ (e.rules r).domains, ∀ c ∈ (cfg.rule r).conditions,
      InMap (e.conds c).hitmap.srcIdx (d.at ((cfg.rule r).conditions.idxOf c)).1 ∧
      InMap (e.conds c).hitmap.tgtIdx (d.at ((cfg.rule r).conditions.idxOf c)).2 := by
  have hcached : Cached cfg e := by
    induction h with
    | refl => exact Cached.init (Passed.wf .refl)
    | tail _ h ih =>
      obtain ⟨op, hok, rfl⟩ := h
      exact ih.exec hok
  refine ⟨hcached.fresh r hk, fun d hd c hc => ?_⟩
  have hb := (cfg.rule r).evaluate_bounded hcached.wf.conds (hcached.fresh r hk) d hd c hc
  have hn := ((hcached.wf.rules r).proper d hd).at_not_null (List.idxOf_lt_length_of_mem hc)
  exact hb.inMap hn

end Engine

/-! ## A cache left behind -/

/-- The condition `a`, which distinguishes sources, and the rule `a WHERE a.$s = 'x'`. -/
def whereConfig : Config Unit Unit where
  lex := ⟨fun _ => none, fun _ => none⟩
  cmap := [()]
  rmap := [()]
  cond _ := { name := "a", severity := .debug, anySrc := true, e := Regex.literal "a",
              perSource := true }
  rule _ := .plain "r" [[.cond ()]] [[.chain [((), .source)] "x"]] "hit" [] (Eq.refl true)
  mem_cmap := mem_unit
  cmap_nodup := unit_nodup
  mem_rmap := mem_unit
  rmap_nodup := unit_nodup
  condName_inj _ _ _ := rfl
  ruleName_inj _ _ _ := rfl

def whereMsg : Msg := ⟨.error, "x", "", "a", 0⟩

/-- The source `x` reports `a`. -/
def whereState : Engine Unit Unit := final (Engine.feed whereConfig whereMsg 0) whereConfig.init

/-- The rule is reset: its condition has no names, and the rule still has the domain of `x`. -/
theorem reset_leaves_domains :
    Reachable whereConfig (final (Engine.resetRule whereConfig "r") whereState) ∧
    (whereConfig.rule ()).domainExpr.evaluate
      (final (Engine.resetRule whereConfig "r") whereState).conds
      (whereConfig.rule ()).conditions [] = .ok [] ∧
    ((final (Engine.resetRule whereConfig "r") whereState).rules ()).domains = [[(0, dAny)]] := by
  refine ⟨?_, by rfl, by decide +kernel⟩
  have hfeed : Reachable whereConfig whereState := .single ⟨.feed whereMsg 0, rfl⟩
  exact hfeed.tail ⟨.resetRule "r", rfl⟩

/-- A feed without error handling keeps the cache. -/
theorem domains_cached_feed : (whereState.rules ()).domains ≠ [] ∧
    (whereConfig.rule ()).domainExpr.evaluate whereState.conds (whereConfig.rule ()).conditions [] =
      .ok (whereState.rules ()).domains := by
  refine ⟨by decide +kernel, ?_⟩
  have hok : Engine.CacheOk whereConfig (.feed whereMsg 0) whereConfig.init := by
    refine ⟨Engine.resetsOk_feed_of_ehs rfl, fun msg now h err e' hthrow => ?_⟩
    cases h
    have hret : (value? (Engine.matchConds whereConfig whereMsg whereConfig.cmap {})
        whereConfig.init).isSome = true := by decide +kernel
    simp [value?_of_error hthrow] at hret
  exact (Engine.domains_cached (.single ⟨_, hok, rfl⟩) (by decide)).1

end MfExtensions
