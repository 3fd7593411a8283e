import MfExtensions.Configure
import MfExtensions.Engine
import MfExtensions.Proofs.ParseTest
import MfExtensions.Watch

/-!
# What a configuration stands for

Which conditions are accepted and which messages they take, said of the texts they are configured
with (`condition_configured`), and that every engine that is accepted is one of those the engine's
theorems are about (`engine_configured`).
-/

namespace MfExtensions

open Exec Peg

theorem toOption_eq_some {ε α : Type} {x : Except ε α} {a : α} :
    x.toOption = some a ↔ x = .ok a := by
  cases x <;> simp [Except.toOption]

/-! ## Sources and categories -/

namespace Outside

variable {E : Outside}

/-- Every name will do, or the name matches one of the regular expressions. -/
def Listed (E : Outside) (ss : List String) (name : String) : Prop :=
  "*" ∈ ss ∨ ∃ s ∈ ss, ∃ e, E.regex s = some e ∧ (e.regexMatch name).isSome

/-- The regular expressions before a `*` compile. -/
def Compiles (E : Outside) (ss : List String) : Prop :=
  ∀ s ∈ ss.takeWhile (· ≠ "*"), (E.regex s).isSome

theorem compile_eq_ok {s : String} {e : Regex} : E.compile s = .ok e ↔ E.regex s = some e := by
  unfold compile
  cases E.regex s <;> simp

theorem patterns_cons {s : String} {ss : List String} (hs : s ≠ "*") {x : Bool × List Regex} :
    E.patterns (s :: ss) = .ok x ↔ ∃ e any es, E.regex s = some e ∧
      E.patterns ss = .ok (any, es) ∧ x = (any, if any then [] else e :: es) := by
  rw [patterns, if_neg hs]
  constructor
  · intro h
    cases he : E.compile s with
    | error err =>
      rw [he] at h
      cases h
    | ok e =>
      cases hes : E.patterns ss with
      | error err =>
        rw [he, hes] at h
        cases h
      | ok y =>
        rw [he, hes] at h
        cases h
        exact ⟨e, y.1, y.2, compile_eq_ok.1 he, rfl, rfl⟩
  · rintro ⟨e, any, es, he, hes, rfl⟩
    rw [compile_eq_ok.2 he, hes]
    rfl

theorem patterns_ok_iff {ss : List String} : (∃ x, E.patterns ss = .ok x) ↔ E.Compiles ss := by
  induction ss with
  | nil => exact ⟨fun _ => List.forall_mem_nil _, fun _ => ⟨_, rfl⟩⟩
  | cons s ss ih =>
    by_cases hs : s = "*"
    · subst hs
      simp [Compiles, patterns]
    · have hcons : E.Compiles (s :: ss) ↔ (E.regex s).isSome ∧ E.Compiles ss := by
        simp [Compiles, hs]
      rw [hcons, ← ih, Option.isSome_iff_exists]
      constructor
      · rintro ⟨x, hx⟩
        obtain ⟨e, any, es, he, hes, -⟩ := (patterns_cons hs).1 hx
        exact ⟨⟨e, he⟩, _, hes⟩
      · rintro ⟨⟨e, he⟩, ⟨any, es⟩, hes⟩
        exact ⟨_, (patterns_cons hs).2 ⟨e, any, es, he, hes, rfl⟩⟩

theorem patterns_listed {ss : List String} : ∀ {any : Bool} {es : List Regex},
    E.patterns ss = .ok (any, es) → ∀ name,
      (any || (es.findSome? fun e => e.regexMatch name).isSome) = true ↔ E.Listed ss name := by
  induction ss with
  | nil =>
    intro any es h name
    cases h
    simp [Listed]
  | cons s ss ih =>
    intro any es h name
    by_cases hs : s = "*"
    · subst hs
      rw [patterns, if_pos rfl] at h
      cases h
      simp [Listed]
    · obtain ⟨e, any', es', he, hes, hx⟩ := (patterns_cons hs).1 h
      obtain ⟨rfl, rfl⟩ := Prod.mk.inj hx
      have hlisted : E.Listed (s :: ss) name ↔ (e.regexMatch name).isSome ∨ E.Listed ss name := by
        simp only [Listed, List.mem_cons, exists_eq_or_imp, he, Option.some.injEq,
          exists_eq_left', Ne.symm hs, false_or]
        tauto
      rw [hlisted, ← ih hes name]
      cases any <;> simp

theorem names_ok {ss : List String} {x : Bool × List Regex} :
    E.names ss = .ok x ↔ ss ≠ [] ∧ E.patterns ss = .ok x := by
  unfold names
  cases hx : E.patterns ss with
  | error err => simp [bind, Except.bind]
  | ok x' =>
    cases ss <;>
      simp [bind, Except.bind, pure, Except.pure, throw, throwThe, MonadExceptOf.throw]

/-! ## Conditions -/

/-- The condition with what was read of its texts. -/
def made (E : Outside) (name : String) (p : CondPset) (rate : Int32 × Bool) (e : Regex)
    (src cat : Bool × List Regex) (testExpr : List (List TestPrimary)) : CondConfig where
  name
  severity := (E.level p.severity).toSevCode
  anySrc := src.1
  eSrcs := src.2
  anyCat := cat.1
  eCats := cat.2
  matchAny := p.regex = "" || p.regex = "*"
  e
  testExpr
  tc := (triggerCount rate.1 rate.2).toInt
  atLeast := rate.2
  ts := p.rate.timespan.toInt
  perSource := p.perSource
  perTarget := p.perTarget
  targetGroup := p.targetGroup
  persistent := p.persistent

theorem liftErr_ok {α : Type} {x : Except Err α} {a : α} : liftErr x = .ok a ↔ x = .ok a := by
  cases x <;> simp [liftErr]

theorem initCondition_ok {name : String} {p : CondPset} {k : CondConfig} :
    E.initCondition name p = .ok k ↔ ∃ rate e src cat es, p.rate.occur name = .ok rate ∧
      E.regex p.regex = some e ∧ E.names p.source = .ok src ∧ E.names p.category = .ok cat ∧
      parseConditionTest E.double p.test = .ok (some es) ∧ k = E.made name p rate e src cat es := by
  constructor
  · intro h
    unfold initCondition at h
    cases hrate : liftErr (p.rate.occur name) with
    | error err =>
      rw [hrate] at h
      cases h
    | ok rate =>
      cases he : E.compile p.regex with
      | error err =>
        rw [hrate, he] at h
        cases h
      | ok e =>
        cases hsrc : E.names p.source with
        | error err =>
          rw [hrate, he, hsrc] at h
          cases h
        | ok src =>
          cases hcat : E.names p.category with
          | error err =>
            rw [hrate, he, hsrc, hcat] at h
            cases h
          | ok cat =>
            cases htest : liftErr (parseConditionTest E.double p.test) with
            | error err =>
              rw [hrate, he, hsrc, hcat, htest] at h
              cases h
            | ok o =>
              rw [hrate, he, hsrc, hcat, htest] at h
              cases o with
              | none => cases h
              | some es =>
                cases h
                exact ⟨rate, e, src, cat, es, liftErr_ok.1 hrate, compile_eq_ok.1 he, rfl, rfl,
                  liftErr_ok.1 htest, rfl⟩
  · rintro ⟨rate, e, src, cat, es, hrate, he, hsrc, hcat, htest, rfl⟩
    unfold initCondition
    rw [liftErr_ok.2 hrate, compile_eq_ok.2 he, hsrc, hcat, liftErr_ok.2 htest]
    rfl

theorem occur_ok_iff {name : String} {r : RateBlock} :
    (∃ rate, r.occur name = .ok rate) ↔ r.occurAtMost = none ∨ r.atLeast = none := by
  unfold RateBlock.occur
  cases r.occurAtMost <;> cases r.atLeast <;> simp

end Outside

/-- The text is that of the tree, or empty where there is none. -/
def IsTest (o : Option TestOrExpr) (text : String) : Prop :=
  o.elim (text = "") fun t => t.Spelled text

/-- What a test says of a condition, if there is one. -/
def saysTest (D : DoubleParser) (L : LexicalCast) (c : Condition) (o : Option TestOrExpr) :
    Except Err Bool :=
  o.elim (.ok true) (TestOrExpr.test D L c)

theorem parse_isTest {D : DoubleParser} {o : Option TestOrExpr} {text : String}
    (hnames : ∀ f ∈ o.elim [] TestOrExpr.terms, Avoids ["AND", "OR"] f.function.str)
    (htext : IsTest o text) :
    ((∃ es, parseConditionTest D text = .ok (some es)) ↔
      ∀ f ∈ o.elim [] TestOrExpr.terms, f.Accepted) ∧
    ∀ es, parseConditionTest D text = .ok (some es) → ∀ L c,
      TestPrimary.evaluate L c (.expr es) = saysTest D L c o := by
  cases o with
  | none =>
    obtain rfl : text = "" := htext
    refine ⟨⟨fun _ => List.forall_mem_nil _, fun _ => ⟨[], rfl⟩⟩, fun es hes L c => ?_⟩
    obtain rfl : [] = es := by cases hes; rfl
    rw [TestPrimary.evaluate]
    rfl
  | some t =>
    have hcases := fun L => test_parsed (D := D) hnames htext L
    constructor
    · rcases hcases ⟨fun _ => none, fun _ => none⟩ with ⟨es, hes, haccepted, -⟩ |
        ⟨pre, f, post, e, hterms, -, hf, -, hthrow⟩
      · exact ⟨fun _ => haccepted, fun _ => ⟨es, hes⟩⟩
      · refine ⟨fun ⟨es, hes⟩ => ?_, fun hall => ?_⟩
        · rw [hthrow] at hes
          cases hes
        · refine absurd (hall f ?_) hf
          show f ∈ t.terms
          simp [hterms]
    · intro es hes L c
      rcases hcases L with ⟨es', hes', -, hmeans⟩ | ⟨pre, f, post, e, -, -, -, -, hthrow⟩
      · obtain rfl : es' = es := by
          rw [hes'] at hes
          cases hes
          rfl
        exact hmeans c
      · rw [hthrow] at hes
        cases hes

/-- A condition is accepted just if its rate is of one kind, its lists are not empty, its regular
expressions compile and the functions of its test take their arguments. It then takes the messages
that are severe enough, are of a source and a category that are listed, have a text that the regular
expression finds something in, and whose groups pass the test. -/
theorem condition_configured {E : Outside} {name : String} {p : CondPset} {o : Option TestOrExpr}
    (hnames : ∀ f ∈ o.elim [] TestOrExpr.terms, Avoids ["AND", "OR"] f.function.str)
    (htest : IsTest o p.test) :
    ((∃ k, E.initCondition name p = .ok k) ↔
      (p.rate.occurAtMost = none ∨ p.rate.atLeast = none) ∧ (E.regex p.regex).isSome ∧
      (p.source ≠ [] ∧ E.Compiles p.source) ∧ (p.category ≠ [] ∧ E.Compiles p.category) ∧
      ∀ f ∈ o.elim [] TestOrExpr.terms, f.Accepted) ∧
    ∀ k, E.initCondition name p = .ok k → ∀ (L : LexicalCast) (msg : Msg),
      k.takes msg L = true ↔
        (E.level p.severity).toSevCode.toNat ≤ msg.sev.toNat ∧ E.Listed p.source msg.app ∧
        E.Listed p.category msg.cat ∧
        ((p.regex = "" ∨ p.regex = "*") ∨
          ∃ e, E.regex p.regex = some e ∧ (e.regexSearch msg.text).isSome) ∧
        saysTest E.double L { texts := msg.texts, lastWhat := k.lastMatch msg } o = .ok true := by
  obtain ⟨haccepted, hmeans⟩ := parse_isTest (D := E.double) hnames htest
  constructor
  · rw [← Outside.occur_ok_iff, ← haccepted, ← Outside.patterns_ok_iff,
      ← Outside.patterns_ok_iff, Option.isSome_iff_exists]
    constructor
    · rintro ⟨k, hk⟩
      obtain ⟨rate, e, src, cat, es, hrate, he, hsrc, hcat, hes, -⟩ :=
        Outside.initCondition_ok.1 hk
      obtain ⟨hsrc₀, hsrc⟩ := Outside.names_ok.1 hsrc
      obtain ⟨hcat₀, hcat⟩ := Outside.names_ok.1 hcat
      exact ⟨⟨rate, hrate⟩, ⟨e, he⟩, ⟨hsrc₀, src, hsrc⟩, ⟨hcat₀, cat, hcat⟩, es, hes⟩
    · rintro ⟨⟨rate, hrate⟩, ⟨e, he⟩, ⟨hsrc₀, src, hsrc⟩, ⟨hcat₀, cat, hcat⟩, es, hes⟩
      exact ⟨_, Outside.initCondition_ok.2 ⟨rate, e, src, cat, es, hrate, he,
        Outside.names_ok.2 ⟨hsrc₀, hsrc⟩, Outside.names_ok.2 ⟨hcat₀, hcat⟩, hes, rfl⟩⟩
  · intro k hk L msg
    obtain ⟨rate, e, src, cat, es, hrate, he, hsrc, hcat, hes, rfl⟩ :=
      Outside.initCondition_ok.1 hk
    have hsrc := Outside.patterns_listed (Outside.names_ok.1 hsrc).2 msg.app
    have hcat := Outside.patterns_listed (Outside.names_ok.1 hcat).2 msg.cat
    rw [← hsrc, ← hcat, ← hmeans es hes L, CondConfig.takes]
    simp only [CondConfig.srcMatch, CondConfig.catMatch, Option.isSome_map, Bool.and_eq_true,
      decide_eq_true_iff, toOption_eq_some, and_assoc]
    refine and_congr_right fun _ => and_congr_right fun _ => and_congr_right fun _ =>
      and_congr ?_ Iff.rfl
    simp [Outside.made, CondConfig.bodyMatch, he]

namespace Sample

/-- Regular expressions without special characters, and the names of the severities. -/
def outside : Outside where
  double := RealLit.doubleParser
  regex s := some (.literal s)
  level s :=
    if s = "DEBUG" then .success
    else if s = "INFO" then .info
    else if s = "WARNING" then .warning
    else .error

/-- Three messages of `daq` with a number above two in ten seconds. -/
def tested : CondPset where
  severity := "WARNING"
  source := ["daq"]
  regex := "rate"
  test := groups.print
  rate := { occurAtLeast := some 3, timespan := 10 }

end Sample

theorem condition_configured_tested :
    ∃ k, Sample.outside.initCondition "busy" Sample.tested = .ok k ∧ ∀ msg,
      k.takes msg Sample.decimalCast = true →
        SevCode.warning.toNat ≤ msg.sev.toNat ∧ Sample.outside.Listed ["daq"] msg.app := by
  have hspelled : IsTest (some Sample.groups) Sample.tested.test := Sample.groups.spelled_print
  obtain ⟨haccepted, htakes⟩ := @condition_configured Sample.outside "busy" Sample.tested
    (some Sample.groups) (by decide) hspelled
  have hcompiles : ∀ ss, Sample.outside.Compiles ss := fun ss s _ => rfl
  obtain ⟨k, hk⟩ := haccepted.2
    ⟨.inl rfl, rfl, ⟨by decide, hcompiles _⟩, ⟨by decide, hcompiles _⟩, by decide⟩
  refine ⟨k, hk, fun msg hmsg => ?_⟩
  obtain ⟨hsev, hsrc, -⟩ := (htakes k hk Sample.decimalCast msg).1 hmsg
  exact ⟨hsev, hsrc⟩

/-! ## The engine -/

/-- A rule over the conditions of an engine, which have the names of the rule's. -/
theorem exists_pointed {C : Type} [DecidableEq C] {names : List String} {k : RuleConfig String}
    (hk : ∀ x ∈ k.booleanExpr.leaves, x.1 ∈ names) {name : C → String}
    (hname : ∀ s ∈ names, ∃ c, name c = s) : ∃ k' : RuleConfig C, k'.map name = k := by
  classical
  obtain ⟨x, xs, hx⟩ := List.exists_cons_of_ne_nil k.leaves_ne
  obtain ⟨c₀, -⟩ := hname x.1 (hk x (by rw [hx]; exact List.mem_cons_self))
  refine ⟨k.map fun s => if h : s ∈ names then (hname s h).choose else c₀,
    RuleConfig.map_map_eq fun s hs => ?_⟩
  obtain ⟨y, hy, rfl⟩ := List.mem_map.1 hs
  rw [dif_pos (hk y hy)]
  exact (hname y.1 (hk y hy)).choose_spec

theorem initRule_ok {D : DoubleParser} {condMap : List String} {name : String} {p : RulePset}
    {k : RuleConfig String} (h : initRule D condMap name p = .ok k) :
    k.name = name ∧ ∀ x ∈ k.booleanExpr.leaves, x.1 ∈ condMap := by
  unfold initRule at h
  split at h
  · cases h
  · cases h
  · next r hr =>
    dsimp only at h
    split at h
    · cases h
    · split at h
      · cases h
      · cases h
        exact ⟨rfl, (parse_grammatical hr).2.2.2.2.1⟩

theorem initEngine_ok {E : Outside} {p : EnginePset} {conds : List CondConfig}
    {rules : List (RuleConfig String)} (h : initEngine E p = .ok (conds, rules)) :
    conds.map CondConfig.name = p.conditions.map Prod.fst ∧
      rules.map RuleConfig.name = p.rules.map Prod.fst ∧
      ∀ k ∈ rules, ∀ x ∈ k.booleanExpr.leaves, x.1 ∈ conds.map CondConfig.name := by
  unfold initEngine at h
  cases hconds : each (fun c => E.initCondition c.1 c.2) p.conditions with
  | error e =>
    rw [hconds] at h
    cases h
  | ok conds' =>
    cases hrules : each (fun r => liftErr (initRule E.double (p.conditions.map Prod.fst) r.1 r.2))
      p.rules with
    | error e =>
      rw [hconds, hrules] at h
      cases h
    | ok rules' =>
      rw [hconds, hrules] at h
      cases h
      have hnames : conds.map CondConfig.name = p.conditions.map Prod.fst :=
        map_eq_of_each hconds fun c k hk => by
          obtain ⟨rate, e, src, cat, es, -, -, -, -, -, rfl⟩ := Outside.initCondition_ok.1 hk
          rfl
      refine ⟨hnames, map_eq_of_each hrules fun r k hk =>
        (initRule_ok (Outside.liftErr_ok.1 hk)).1, fun k hk => ?_⟩
      obtain ⟨r, -, hr⟩ := exists_of_mem_each hrules hk
      rw [hnames]
      exact (initRule_ok (Outside.liftErr_ok.1 hr)).2

theorem injective_get_of_nodup_map {A B : Type} {f : A → B} {as : List A} (h : (as.map f).Nodup) :
    Function.Injective fun i : Fin as.length => f (as.get i) := fun i j hij =>
  List.nodup_iff_injective_get.1 (List.Nodup.of_map f h)
    (List.inj_on_of_nodup_map h (List.get_mem as i) (List.get_mem as j) hij)

/-- The names of a list are in order. -/
def ByName {A : Type} (name : A → String) (as : List A) : Prop :=
  as.Pairwise fun a b => name a < name b

theorem exists_byName {A : Type} {name : A → String} (hname : Function.Injective name)
    {as : List A} (has : as.Nodup) : ∃ bs : List A, bs.Perm as ∧ ByName name bs := by
  have hperm := List.perm_insertionSort (fun a b => name a ≤ name b) as
  refine ⟨as.insertionSort fun a b => name a ≤ name b, hperm, ?_⟩
  have hsorted := List.pairwise_insertionSort (fun a b => name a ≤ name b) as
  refine (hsorted.and (hperm.nodup_iff.2 has)).imp fun {a b} hab => ?_
  exact lt_of_le_of_ne hab.1 fun heq => hab.2 (hname heq)

/-- Every engine that is accepted, whatever the order of its rules in memory, is one of those the
engine is modelled with: it has the conditions and rules of the parameter sets, in the order of
their names, and the rules point to its conditions. -/
theorem engine_configured {E : Outside} {p : EnginePset} {conds : List CondConfig}
    {rules : List (RuleConfig String)} (h : initEngine E p = .ok (conds, rules))
    {R : Type} [LinearOrder R] (place : Fin rules.length ≃ R) (L : LexicalCast) :
    ∃ cfg : Config (Fin conds.length) R, cfg.lex = L ∧ cfg.EHS = p.EHS ∧
      (∀ c, cfg.cond c = conds.get c) ∧
      (∀ r, (cfg.rule (place r)).map (fun c => (cfg.cond c).name) = rules.get r) ∧
      ByName (fun c => (cfg.cond c).name) cfg.cmap ∧ ByName (fun r => (cfg.rule r).name) cfg.rmap ∧
      conds.map CondConfig.name = p.conditions.map Prod.fst ∧
      rules.map RuleConfig.name = p.rules.map Prod.fst := by
  obtain ⟨hconds, hrules, hleaves⟩ := initEngine_ok h
  have hcond : Function.Injective fun c => (conds.get c).name :=
    injective_get_of_nodup_map (hconds ▸ p.conditions_nodup)
  have hsurj : ∀ s ∈ conds.map CondConfig.name, ∃ c, (conds.get c).name = s := by
    intro s hs
    obtain ⟨k, hk, rfl⟩ := List.mem_map.1 hs
    obtain ⟨c, rfl⟩ := List.get_of_mem hk
    exact ⟨c, rfl⟩
  have hpointed : ∀ r, ∃ k : RuleConfig (Fin conds.length),
      k.map (fun c => (conds.get c).name) = rules.get r := fun r =>
    exists_pointed (hleaves _ (List.get_mem rules r)) hsurj
  choose rule hrule using hpointed
  have hname : Function.Injective fun r => (rule (place.symm r)).name := by
    have hget : ∀ r, (rule r).name = (rules.get r).name := fun r => by rw [← hrule r]; rfl
    simp only [hget]
    exact (injective_get_of_nodup_map (hrules ▸ p.rules_nodup)).comp place.symm.injective
  obtain ⟨cmap, hcperm, hcmap⟩ := exists_byName hcond (List.nodup_finRange conds.length)
  obtain ⟨rmap, hrperm, hrmap⟩ := exists_byName hname
    ((List.nodup_finRange rules.length).map place.injective)
  refine ⟨{
    lex := L
    EHS := p.EHS
    cmap
    rmap
    cond := conds.get
    rule := fun r => rule (place.symm r)
    mem_cmap := fun c => hcperm.mem_iff.2 (List.mem_finRange c)
    cmap_nodup := hcperm.nodup_iff.2 (List.nodup_finRange _)
    mem_rmap := fun r => hrperm.mem_iff.2
      (List.mem_map.2 ⟨place.symm r, List.mem_finRange _, place.apply_symm_apply r⟩)
    rmap_nodup := hrperm.nodup_iff.2 ((List.nodup_finRange _).map place.injective)
    condName_inj := fun c c' hcc => hcond hcc
    ruleName_inj := fun r r' hrr => hname hrr }, rfl, rfl, fun _ => rfl, fun r => ?_, hcmap, hrmap,
    hconds, hrules⟩
  show (rule (place.symm (place r))).map _ = _
  rw [place.symm_apply_apply]
  exact hrule r

namespace Sample

/-- An alarm that names the source of the messages. -/
def engine : EnginePset where
  conditions := [("busy", tested)]
  rules := [("alarm", { expression := "busy", message := "$\x7bbusy.$s\x7d is busy" })]
  conditions_nodup := by decide
  rules_nodup := by decide

end Sample

theorem engine_configured_busy : ∃ conds rules,
    initEngine Sample.outside Sample.engine = .ok (conds, rules) ∧
    ∃ cfg : Config (Fin conds.length) (Fin rules.length),
      (∀ r, (cfg.rule r).map (fun c => (cfg.cond c).name) = rules.get r) ∧
      conds.map CondConfig.name = ["busy"] ∧ rules.map RuleConfig.name = ["alarm"] := by
  have hsome : (initEngine Sample.outside Sample.engine).toOption.isSome = true := by
    decide +kernel
  obtain ⟨⟨conds, rules⟩, hx⟩ := Option.isSome_iff_exists.1 hsome
  have h := toOption_eq_some.1 hx
  obtain ⟨cfg, -, -, -, hrule, -, -, hconds, hrules⟩ :=
    engine_configured h (Equiv.refl (Fin rules.length)) Sample.decimalCast
  exact ⟨conds, rules, h, cfg, hrule, hconds, hrules⟩

end MfExtensions
