import MfExtensions.Proofs.FeedThrows
import MfExtensions.Proofs.TwinEngine
import MfExtensions.Registration

/-!
# What a feed notifies

The lists a rule pushed itself on while it was parsed name it once and are those of the conditions
it names (`initNotifyLists_eq`). A condition reports just the changes it makes (`capture_reported`),
so that a feed calls a rule once if it is about a condition that changed, and no other rule
(`feed_calls`).
-/

namespace MfExtensions

open Exec

variable {C R : Type} [DecidableEq C] [LinearOrder R]

/-! ## The lists -/

theorem mem_pushNotify {rule r : R} {list : List R} :
    r ∈ pushNotify rule list ↔ r ∈ list ∨ r = rule := by
  unfold pushNotify
  split_ifs with h
  · rw [List.elem_iff] at h
    refine ⟨.inl, fun hr => hr.elim id fun heq => heq ▸ h⟩
  · rw [List.mem_append, List.mem_singleton]

theorem pushNotify_nodup {rule : R} {list : List R} (h : list.Nodup) :
    (pushNotify rule list).Nodup := by
  unfold pushNotify
  split_ifs with hmem
  · exact h
  · rw [List.elem_iff] at hmem
    exact h.append (List.nodup_singleton rule) (by simpa using hmem)

/-- Each list names a rule once. -/
def NotifyLists.Nodup (lists : NotifyLists C R) : Prop := ∀ type c, (lists type c).Nodup

theorem mem_foldl_pushOn {rule r : R} {type : NotifyT} {c : C} :
    ∀ (ns : List (NotifyT × C)) (lists : NotifyLists C R),
      r ∈ ns.foldl (pushOn rule) lists type c ↔ r ∈ lists type c ∨ r = rule ∧ (type, c) ∈ ns
  | [], lists => by simp
  | n :: ns, lists => by
    rw [List.foldl_cons, mem_foldl_pushOn ns, pushOn, List.mem_cons]
    split_ifs with h
    · rw [mem_pushNotify]
      simp only [h, true_or, and_true]
      tauto
    · simp only [h, false_or]

theorem foldl_pushOn_nodup {rule : R} : ∀ (ns : List (NotifyT × C)) {lists : NotifyLists C R},
    lists.Nodup → NotifyLists.Nodup (ns.foldl (pushOn rule) lists)
  | [], _, h => h
  | n :: ns, lists, h => by
    refine foldl_pushOn_nodup ns fun type c => ?_
    unfold pushOn
    split_ifs
    · exact pushNotify_nodup (h type c)
    · exact h type c

namespace Config

variable (cfg : Config C R)

/-- A rule is on the lists it was pushed on, once. -/
theorem parseRules_spec (rnames : List R) : (cfg.parseRules rnames).Nodup ∧ ∀ type c r,
    r ∈ cfg.parseRules rnames type c ↔ r ∈ rnames ∧ (type, c) ∈ (cfg.rule r).notified := by
  have hfold : ∀ (rs : List R) (lists : NotifyLists C R), lists.Nodup →
      NotifyLists.Nodup (rs.foldl (fun lists r => (cfg.rule r).notified.foldl (pushOn r) lists)
        lists) ∧ ∀ type c r,
      r ∈ rs.foldl (fun lists r => (cfg.rule r).notified.foldl (pushOn r) lists) lists type c ↔
        r ∈ lists type c ∨ r ∈ rs ∧ (type, c) ∈ (cfg.rule r).notified := by
    intro rs
    induction rs with
    | nil => exact fun lists h => ⟨h, by simp⟩
    | cons r₁ rs ih =>
      intro lists h
      obtain ⟨hnodup, hmem⟩ := ih _ (foldl_pushOn_nodup (cfg.rule r₁).notified h)
      refine ⟨hnodup, fun type c r => ?_⟩
      rw [List.foldl_cons, hmem, mem_foldl_pushOn, List.mem_cons, or_assoc]
      by_cases hr : r = r₁
      · subst hr
        tauto
      · tauto
  obtain ⟨hnodup, hmem⟩ := hfold rnames (fun _ _ => []) fun _ _ => List.nodup_nil
  exact ⟨hnodup, fun type c r => (hmem type c r).trans (by simp)⟩

theorem mem_notified {k : RuleConfig C} {type : NotifyT} {c : C} : (type, c) ∈ k.notified ↔
    match type with
    | .status => c ∈ k.conditions
    | .source => (c, .source) ∈ k.domainExpr.args
    | .target => (c, .target) ∈ k.domainExpr.args := by
  have harg : ∀ a, (c, a) ∈ k.domainExpr.args → a = .source ∨ a = .target :=
    fun a ha => DomainCond.source_or_targetOr k.domainGrammatical _ ha
  unfold RuleConfig.notified ArgT.notifyT
  cases type with
  | status =>
    have hne : ∀ a : ArgT, (if a = .source then NotifyT.source else .target) ≠ .status := by
      intro a
      split_ifs <;> simp
    simp [hne]
  | source =>
    simp only [List.mem_append, List.mem_map, Prod.mk.injEq, reduceCtorEq, false_and, and_false,
      exists_false, false_or]
    constructor
    · rintro ⟨p, hp, hsource, rfl⟩
      split_ifs at hsource with ha
      exact ha ▸ hp
    · exact fun hp => ⟨_, hp, rfl, rfl⟩
  | target =>
    simp only [List.mem_append, List.mem_map, Prod.mk.injEq, reduceCtorEq, false_and, and_false,
      exists_false, false_or]
    constructor
    · rintro ⟨p, hp, htarget, rfl⟩
      split_ifs at htarget with ha
      rcases harg p.2 hp with hs | ht
      · exact absurd hs ha
      · exact ht ▸ hp
    · exact fun hp => ⟨_, hp, rfl, rfl⟩

omit [DecidableEq C] in
theorem insertionSort_sorted {l : List R} (h : l.Nodup) :
    (l.insertionSort (· ≤ ·)).Pairwise (· < ·) := by
  have hle := List.pairwise_insertionSort (· ≤ ·) l
  have hne : (l.insertionSort (· ≤ ·)).Nodup := (List.perm_insertionSort (· ≤ ·) l).nodup_iff.2 h
  exact hle.imp₂ (fun _ _ hle hne => lt_of_le_of_ne hle hne) hne

theorem notifyList_sorted (type : NotifyT) (c : C) :
    (cfg.notifyList type c).Pairwise (· < ·) :=
  insertionSort_sorted (cfg.rmap_nodup.filter _)

/-- The lists a rule pushed itself on are those of the conditions it names. -/
theorem initNotifyLists_eq {rnames : List R} (h : ∀ r, r ∈ rnames) :
    cfg.initNotifyLists rnames = cfg.notifyList := by
  obtain ⟨hnodup, hmem⟩ := cfg.parseRules_spec rnames
  funext type c
  refine (insertionSort_sorted (hnodup type c)).eq_of_mem_iff (cfg.notifyList_sorted type c)
    fun r => ?_
  rw [List.mem_insertionSort, hmem, mem_notified, mem_notifyList]
  exact and_iff_right (h r)

/-- Merging sorted lists inserts the elements of one into the other. -/
theorem merge_eq (type : NotifyT) : ∀ (cs : List C) {l : List R}, l.Pairwise (· < ·) →
    NotifyLists.merge cfg.notifyList type l cs = cfg.mergeNotifyList type l cs
  | [], _, _ => rfl
  | c :: cs, l, h => by
    have hle : ∀ {m : List R}, m.Pairwise (· < ·) → m.Pairwise (· ≤ ·) :=
      fun hm => hm.imp le_of_lt
    have hmerge := destutter_sorted ((hle h).merge (hle (cfg.notifyList_sorted type c)))
    have hinsert := destutter_sorted (foldr_orderedInsert_sorted (hle h) (cfg.notifyList type c))
    have hhead : (l.merge (cfg.notifyList type c) fun a b => decide (a ≤ b)).destutter (· ≠ ·) =
        ((cfg.notifyList type c).foldr (List.orderedInsert (· ≤ ·)) l).destutter (· ≠ ·) := by
      refine hmerge.eq_of_mem_iff hinsert fun r => ?_
      rw [List.mem_destutter_ne, List.mem_destutter_ne, List.mem_merge, mem_foldr_orderedInsert]
      exact or_comm
    refine (merge_eq type cs hmerge).trans ?_
    rw [hhead]
    rfl

end Config

/-! ## What a condition reports -/

namespace Hitmap

variable {k : CondConfig} {msg : Msg} {src tgt : String} {what : Smatch} {h h' : Hitmap}
  {change : Change} {te : Option CellEvent}

theorem findIndex_new {per : Bool} {glob name : String} {m : IdxMap} :
    (findIndex per glob m name).2.2 = true ↔
      ∃ n, m.find? n = none ∧ (findIndex per glob m name).1.find? n ≠ none := by
  rcases findIndex_cases per glob m name with ⟨hnew, hm⟩ | ⟨hnew, n, hn, hm⟩
  · rw [hnew, hm]
    refine ⟨fun h => (Bool.false_ne_true h).elim, ?_⟩
    rintro ⟨n, hnone, hsome⟩
    exact absurd hnone hsome
  · rw [hnew, hm]
    refine ⟨fun _ => ⟨n, hn, ?_⟩, fun _ => rfl⟩
    rw [OrdMap.find?_insert]
    simp [hn]

theorem setCell_flips {h : Hitmap} {s t : ℕ} {x : Cell} :
    (∃ s' t', ((h.setCell s t x).cells s' t').on ≠ (h.cells s' t').on) ↔
      x.on ≠ (h.cells s t).on := by
  unfold Hitmap.setCell
  constructor
  · rintro ⟨s', t', hne⟩
    dsimp only at hne
    split_ifs at hne with heq
    · rwa [heq.1, heq.2] at hne
    · exact absurd rfl hne
  · intro hne
    refine ⟨s, t, ?_⟩
    dsimp only
    rwa [if_pos ⟨rfl, rfl⟩]

/-- The change says whether a cell flipped and a map has a new name. -/
theorem capture_reported (hb : h.Built)
    (hc : capture k msg src tgt what h = some (h', change, te)) :
    (change.status = true ↔ ∃ s t, (h'.cells s t).on ≠ (h.cells s t).on) ∧
    ∀ a : ArgT, (if a = .source then change.source else change.target) = true ↔
      ∃ name, (h.args a).find? name = none ∧ (h'.args a).find? name ≠ none := by
  obtain ⟨hs, ht, hsn, htn⟩ := capture_idx hc
  refine ⟨?_, fun a => ?_⟩
  · unfold capture at hc
    rw [hb.locate_eq] at hc
    dsimp only at hc
    split at hc
    · cases hc
    · rename_i x te flipped hhit
      cases hc
      have hflip := Cell.hit_flipped hhit
      rw [hflip, bne_iff_ne]
      exact setCell_flips.symm
  · unfold Hitmap.args
    split_ifs
    · rw [hs, hsn]
      exact findIndex_new
    · rw [ht, htn]
      exact findIndex_new

end Hitmap

namespace Condition

/-- The status of a cell is another one. -/
def Flipped (x y : Condition) : Prop :=
  ∃ s t, (y.hitmap.cells s t).on ≠ (x.hitmap.cells s t).on

/-- A map has a name it did not have. -/
def GotName (x y : Condition) (a : ArgT) : Prop :=
  ∃ name, (x.hitmap.args a).find? name = none ∧ (y.hitmap.args a).find? name ≠ none

theorem not_flipped {x y : Condition} (h : y.hitmap = x.hitmap) : ¬Flipped x y := by
  rintro ⟨s, t, hne⟩
  rw [h] at hne
  exact hne rfl

theorem not_gotName {x y : Condition} {a : ArgT} (h : y.hitmap = x.hitmap) :
    ¬GotName x y a := by
  rintro ⟨name, hnone, hsome⟩
  rw [h] at hsome
  exact hsome hnone

end Condition

namespace Engine

variable {cfg : Config C R} {msg : Msg} {now : ℤ} {e e' : Engine C R}

/-- What is reported of a condition is what was, and how it changed. -/
def Reported (x y : Condition) (l l' : Changed C) (c : C) : Prop :=
  (c ∈ l'.status ↔ c ∈ l.status ∨ x.Flipped y) ∧
    ∀ a, c ∈ l'.of a ↔ c ∈ l.of a ∨ x.GotName y a

omit [DecidableEq C] in
theorem reported_of_kept {x y : Condition} {l : Changed C} {c : C} (h : y.hitmap = x.hitmap) :
    Reported x y l l c :=
  ⟨(or_iff_left (Condition.not_flipped h)).symm,
    fun _ => (or_iff_left (Condition.not_gotName h)).symm⟩

omit [DecidableEq C] in
/-- A condition that stays in one of two steps is reported as in the other. -/
theorem Reported.trans {x y z : Condition} {l l₁ l₂ : Changed C} {c : C}
    (h₁ : Reported x y l l₁ c) (h₂ : Reported y z l₁ l₂ c) (hkept : y = x ∨ z = y) :
    Reported x z l l₂ c := by
  obtain ⟨hs₁, ha₁⟩ := h₁
  obtain ⟨hs₂, ha₂⟩ := h₂
  rcases hkept with rfl | rfl
  · refine ⟨?_, fun a => ?_⟩
    · rw [hs₂, hs₁, or_iff_left (Condition.not_flipped rfl)]
    · rw [ha₂, ha₁, or_iff_left (Condition.not_gotName rfl)]
  · refine ⟨?_, fun a => ?_⟩
    · rw [hs₂, hs₁, or_iff_left (Condition.not_flipped rfl)]
    · rw [ha₂, ha₁, or_iff_left (Condition.not_gotName rfl)]

omit [DecidableEq C] in
theorem Changed.mem_push_status {c c' : C} {change : Change} {l : Changed C} :
    c' ∈ (l.push c change).status ↔ c' ∈ l.status ∨ c' = c ∧ change.status = true := by
  unfold Changed.push
  split_ifs <;> simp_all

omit [DecidableEq C] in
/-- Nothing is reported of another condition. -/
theorem reported_push {x : Condition} {c c' : C} (hne : c' ≠ c) (change : Change)
    (l : Changed C) : Reported x x l (l.push c change) c' := by
  refine ⟨?_, fun a => ?_⟩
  · rw [Changed.mem_push_status, or_iff_left fun h => hne h.1,
      or_iff_left (Condition.not_flipped rfl)]
  · rw [Changed.mem_of_push, or_iff_left fun h => hne h.1,
      or_iff_left (Condition.not_gotName rfl)]

omit [LinearOrder R] in
/-- Matching a condition says how it changed. -/
theorem matchCond_reported {c : C} {r : Option Change} (l : Changed C)
    (hb : (e.conds c).hitmap.Built) (h : matchCond cfg c msg e = .ok r e') :
    Reported (e.conds c) (e'.conds c) l (r.elim l (l.push c)) c := by
  rcases matchCond_cases cfg c msg e with
    ⟨x, hkept, hm | ⟨err, hm⟩⟩ | ⟨x, hitmap, change, te, hkept, hcap, hm⟩ <;> rw [hm] at h
  · cases h
    dsimp only
    rw [Function.update_self]
    exact reported_of_kept hkept.1
  · cases h
  · cases h
    dsimp only
    rw [Function.update_self]
    obtain ⟨hflip, hname⟩ := Hitmap.capture_reported hb hcap
    refine ⟨?_, fun a => ?_⟩
    · exact Changed.mem_push_status.trans (or_congr_right ((and_iff_right rfl).trans hflip))
    · exact Changed.mem_of_push.trans (or_congr_right ((and_iff_right rfl).trans (hname a)))

omit [LinearOrder R] in
/-- The loop through the conditions says how each changed. -/
theorem matchConds_reported : ∀ {cs : List C} {l l' : Changed C} {e e' : Engine C R}, cs.Nodup →
    (∀ c ∈ cs, (e.conds c).hitmap.Built) → matchConds cfg msg cs l e = .ok l' e' →
    ∀ c, Reported (e.conds c) (e'.conds c) l l' c
  | [], l, l', e, e', _, _, h, c => by
    cases h
    exact reported_of_kept rfl
  | c₁ :: cs, l, l', e, e', hnd, hb, h, c => by
    obtain ⟨hc₁, hcs⟩ := List.nodup_cons.1 hnd
    obtain ⟨hb₁, hb⟩ := List.forall_mem_cons.1 hb
    unfold matchConds at h
    obtain ⟨r, e₁, h₁, h⟩ := bind_ok.1 h
    have hother := (matchCond_ok h₁).2
    obtain ⟨e₂, h₂, hconds⟩ : ∃ e₂, matchConds cfg msg cs (r.elim l (l.push c₁)) e₂ = .ok l' e' ∧
        e₂.conds = e₁.conds := by
      cases r with
      | none => exact ⟨_, h, rfl⟩
      | some change =>
        obtain ⟨⟨⟩, e₂, hemit, h⟩ := bind_ok.1 h
        cases hemit
        exact ⟨_, h, rfl⟩
    have hb₂ : ∀ c ∈ cs, (e₂.conds c).hitmap.Built := by
      intro c hc
      rw [hconds, hother c fun heq => hc₁ (heq ▸ hc)]
      exact hb c hc
    have htail := matchConds_reported hcs hb₂ h₂ c
    rw [hconds] at htail
    by_cases hc : c = c₁
    · subst hc
      have hkept := (matchConds_ok hcs h₂).2 c hc₁
      rw [hconds] at hkept
      exact (matchCond_reported l hb₁ h₁).trans htail (.inr hkept)
    · rw [hother c hc] at htail
      refine Reported.trans ?_ htail (.inl rfl)
      cases r with
      | none => exact reported_of_kept rfl
      | some change => exact reported_push hc change l

/-! ## The calls -/

omit [DecidableEq C] [LinearOrder R] in
theorem calling_ok {α : Type} {call : Option (Call R)} {x : EStateM Err (Engine C R) α}
    {calls calls' : List (Call R)} {a : α} :
    calling call x (e, calls) = .ok a (e', calls') ↔
      x e = .ok a e' ∧ calls' = calls ++ call.toList := by
  rw [calling, bind_apply, modify_apply]
  dsimp only [zoom]
  rcases x e with ⟨b, e₁⟩ | ⟨err, e₁⟩
  · simp only [EStateM.Result.ok.injEq, Prod.mk.injEq, and_assoc]
    rw [eq_comm (a := calls')]
  · simp

theorem evaluateRulesDomainCalls_ok : ∀ {rs : List R} {e : Engine C R}
    {calls calls' : List (Call R)},
    evaluateRulesDomainCalls cfg rs (e, calls) = .ok () (e', calls') ↔
      evaluateRulesDomain cfg rs e = .ok () e' ∧ calls' = calls ++ rs.map .evaluateDomain
  | [], e, calls, calls' => by
    simp [evaluateRulesDomainCalls, evaluateRulesDomain, eq_comm]
  | r :: rs, e, calls, calls' => by
    rw [evaluateRulesDomainCalls, evaluateRulesDomain, bind_ok, bind_ok]
    constructor
    · rintro ⟨⟨⟩, ⟨e₁, calls₁⟩, hcall, h⟩
      obtain ⟨h₁, rfl⟩ := calling_ok.1 hcall
      obtain ⟨hrest, rfl⟩ := evaluateRulesDomainCalls_ok.1 h
      exact ⟨⟨(), e₁, h₁, hrest⟩, by simp⟩
    · rintro ⟨⟨⟨⟩, e₁, h₁, hrest⟩, rfl⟩
      exact ⟨(), (e₁, _), calling_ok.2 ⟨h₁, rfl⟩,
        evaluateRulesDomainCalls_ok.2 ⟨hrest, by simp⟩⟩

theorem evaluateRulesCalls_ok : ∀ {rs : List R} {e : Engine C R} {calls calls' : List (Call R)},
    evaluateRulesCalls cfg now rs (e, calls) = .ok () (e', calls') ↔
      evaluateRules cfg now rs e = .ok () e' ∧ calls' = calls ++ rs.map .evaluate
  | [], e, calls, calls' => by
    simp [evaluateRulesCalls, evaluateRules, eq_comm]
  | r :: rs, e, calls, calls' => by
    rw [evaluateRulesCalls, evaluateRules, bind_ok, bind_ok]
    constructor
    · rintro ⟨⟨⟩, ⟨e₁, calls₁⟩, hcall, h⟩
      obtain ⟨h₁, rfl⟩ := calling_ok.1 hcall
      obtain ⟨hrest, rfl⟩ := evaluateRulesCalls_ok.1 h
      exact ⟨⟨(), e₁, h₁, hrest⟩, by simp⟩
    · rintro ⟨⟨⟨⟩, e₁, h₁, hrest⟩, rfl⟩
      exact ⟨(), (e₁, _), calling_ok.2 ⟨h₁, rfl⟩, evaluateRulesCalls_ok.2 ⟨hrest, by simp⟩⟩

theorem merge_status {rnames : List R} (hr : ∀ r, r ∈ rnames) (l : Changed C) :
    (cfg.initNotifyLists rnames).merge .status [] l.status = notifyStatus cfg l := by
  rw [cfg.initNotifyLists_eq hr]
  exact cfg.merge_eq .status l.status .nil

theorem merge_domain {rnames : List R} (hr : ∀ r, r ∈ rnames) (l : Changed C) :
    (cfg.initNotifyLists rnames).merge .target
      ((cfg.initNotifyLists rnames).merge .source [] l.source) l.target = notifyDomain cfg l := by
  rw [cfg.initNotifyLists_eq hr, cfg.merge_eq .source l.source .nil]
  exact cfg.merge_eq .target l.target (cfg.mergeNotifyList_sorted .source l.source .nil)

/-- A feed that does not throw calls the rules its lists merge to. -/
theorem feedCalls_ok {rnames : List R} (hr : ∀ r, r ∈ rnames) {calls : List (Call R)} :
    feedCalls cfg (cfg.initNotifyLists rnames) msg now (e, []) = .ok () (e', calls) ↔
      ∃ l e₁ e₂, matchConds cfg msg cfg.cmap {} e = .ok l e₁ ∧
        evaluateRulesDomain cfg (notifyDomain cfg l) e₁ = .ok () e₂ ∧
        evaluateRules cfg now (notifyStatus cfg l) e₂ = .ok () e' ∧
        calls = (notifyDomain cfg l).map .evaluateDomain ++
          (notifyStatus cfg l).map .evaluate := by
  unfold feedCalls
  simp only [merge_status hr, merge_domain hr]
  constructor
  · intro h
    obtain ⟨l, ⟨e₁, calls₁⟩, hmatch, h⟩ := bind_ok.1 h
    obtain ⟨⟨⟩, ⟨e₂, calls₂⟩, hdomains, hrules⟩ := bind_ok.1 h
    obtain ⟨h₁, rfl⟩ := calling_ok.1 hmatch
    obtain ⟨h₂, rfl⟩ := evaluateRulesDomainCalls_ok.1 hdomains
    obtain ⟨h₃, rfl⟩ := evaluateRulesCalls_ok.1 hrules
    exact ⟨l, e₁, e₂, h₁, h₂, h₃, by simp⟩
  · rintro ⟨l, e₁, e₂, h₁, h₂, h₃, rfl⟩
    refine bind_ok.2 ⟨l, _, calling_ok.2 ⟨h₁, rfl⟩, bind_ok.2 ⟨(), _,
      evaluateRulesDomainCalls_ok.2 ⟨h₂, rfl⟩, evaluateRulesCalls_ok.2 ⟨h₃, ?_⟩⟩⟩
    simp

theorem mem_notifyDomain_iff {l : Changed C} {r : R} : r ∈ notifyDomain cfg l ↔
    ∃ p ∈ (cfg.rule r).domainExpr.args, p.1 ∈ l.of p.2 := by
  refine ⟨fun h => ?_, fun ⟨p, hp, hl⟩ => mem_notifyDomain cfg hp hl⟩
  unfold notifyDomain at h
  simp only [Config.mem_mergeNotifyList, Config.mem_notifyList, List.not_mem_nil,
    false_or] at h
  rcases h with ⟨c, hc, hp⟩ | ⟨c, hc, hp⟩
  · exact ⟨_, hp, hc⟩
  · exact ⟨_, hp, hc⟩

theorem mem_notifyStatus {l : Changed C} {r : R} : r ∈ notifyStatus cfg l ↔
    ∃ c ∈ (cfg.rule r).booleanExpr.leaves.map Prod.fst, c ∈ l.status := by
  unfold notifyStatus
  simp only [Config.mem_mergeNotifyList, Config.mem_notifyList, List.not_mem_nil, false_or,
    RuleConfig.mem_conditions]
  exact exists_congr fun c => and_comm

/-- A feed that does not throw evaluates the domains of each rule with a clause about a map that
got a name, and then each rule about a condition that flipped, every rule once and no other. -/
theorem feed_calls (h : Reachable cfg e) {rnames : List R} (hr : ∀ r, r ∈ rnames)
    (hfeed : feed cfg msg now e = .ok () e') :
    ∃ (l : Changed C) (e₁ : Engine C R) (ds rs : List R),
    matchConds cfg msg cfg.cmap {} e = .ok l e₁ ∧
    feedCalls cfg (cfg.initNotifyLists rnames) msg now (e, []) =
      .ok () (e', ds.map .evaluateDomain ++ rs.map .evaluate) ∧
    ds.Nodup ∧ rs.Nodup ∧
    (∀ r, r ∈ ds ↔ ∃ p ∈ (cfg.rule r).domainExpr.args,
      (e.conds p.1).GotName (e₁.conds p.1) p.2) ∧
    ∀ r, r ∈ rs ↔ ∃ c ∈ (cfg.rule r).booleanExpr.leaves.map Prod.fst,
      (e.conds c).Flipped (e₁.conds c) := by
  unfold feed at hfeed
  obtain ⟨l, e₁, hmatch, hfeed⟩ := bind_ok.1 hfeed
  obtain ⟨⟨⟩, e₂, hdomains, hrules⟩ := bind_ok.1 hfeed
  have hbuilt : ∀ c ∈ cfg.cmap, (e.conds c).hitmap.Built :=
    fun c _ => (h.twin.conds c).sound.built
  have hreported := matchConds_reported cfg.cmap_nodup hbuilt hmatch
  refine ⟨l, e₁, notifyDomain cfg l, notifyStatus cfg l, hmatch,
    (feedCalls_ok hr).2 ⟨l, e₁, e₂, hmatch, hdomains, hrules, rfl⟩, ?_, ?_, fun r => ?_,
    fun r => ?_⟩
  · exact (cfg.mergeNotifyList_sorted .target _
      (cfg.mergeNotifyList_sorted .source _ .nil)).imp ne_of_lt
  · exact (cfg.mergeNotifyList_sorted .status _ .nil).imp ne_of_lt
  · rw [mem_notifyDomain_iff]
    refine exists_congr fun p => and_congr_right fun _ => ?_
    rw [(hreported p.1).2 p.2, or_iff_right]
    unfold Changed.of
    split_ifs <;> exact List.not_mem_nil
  · rw [mem_notifyStatus]
    refine exists_congr fun c => and_congr_right fun _ => ?_
    rw [(hreported c).1, or_iff_right List.not_mem_nil]

end Engine

/-- The first message of the source `x`, to a rule with a clause about it. -/
theorem feed_calls_where : ∃ ds rs : List Unit,
    Engine.feedCalls whereConfig (whereConfig.initNotifyLists [()]) whereMsg 0
      (whereConfig.init, []) =
        .ok () (whereState, ds.map .evaluateDomain ++ rs.map .evaluate) ∧
    () ∈ ds ∧ () ∈ rs := by
  have hfeed : Engine.feed whereConfig whereMsg 0 whereConfig.init = .ok () whereState :=
    ok_of_value? (by decide +kernel)
  obtain ⟨l, e₁, ds, rs, hmatch, hcalls, -, -, hds, hrs⟩ :=
    Engine.feed_calls .refl mem_unit hfeed
  have he₁ := final_ok hmatch
  subst he₁
  refine ⟨ds, rs, hcalls, (hds ()).2 ⟨((), .source), ?_, "x", ?_, ?_⟩,
    (hrs ()).2 ⟨(), ?_, 0, 0, ?_⟩⟩
  · decide +kernel
  · decide +kernel
  · decide +kernel
  · decide +kernel
  · decide +kernel

end MfExtensions
