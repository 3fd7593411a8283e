import MfExtensions.Proofs.Condition
import MfExtensions.Proofs.DomainExpr
import MfExtensions.Proofs.Evaluate
import MfExtensions.Proofs.Steps

/-!
# What a feed changes

Each condition changes itself and reports which of its maps it has changed (`matchConds_maps`); no
rule changes before all of them have matched (`matchConds_rulesKept`). The domains are then
evaluated again for the rules that name a map that was reported (`evaluateRulesDomain_ok`), and
nothing else changes.
-/

namespace MfExtensions

open Exec Relation

variable {C R : Type} [DecidableEq C] [LinearOrder R]

/-- The map of an argument is the same in both states. -/
def SameMap (conds conds' : C → Condition) (p : C × ArgT) : Prop :=
  (conds' p.1).hitmap.args p.2 = (conds p.1).hitmap.args p.2

namespace Engine

variable (cfg : Config C R)

/-- What the conditions of a feed leave alone. -/
def RulesKept (e e' : Engine C R) : Prop :=
  e'.rules = e.rules ∧ e'.EHS = e.EHS ∧ e'.participants = e.participants

omit [DecidableEq C] [LinearOrder R] in
theorem pre_rulesKept : Pre (RulesKept (C := C) (R := R)) :=
  (Pre.frame Engine.rules).and ((Pre.frame Engine.EHS).and (Pre.frame Engine.participants))

/-- The events once a hit has scheduled its own, if it does. -/
def schedule (c : C) (te : Option Hitmap.CellEvent) (events : List (TimingEvent C)) :
    List (TimingEvent C) :=
  match te with
  | none => events
  | some (ts, s, t) => pushEvent ⟨ts, c, s, t⟩ events

omit [LinearOrder R] in
/-- Matching a condition leaves its hitmap as it is or captures the message. -/
theorem matchCond_cases (c : C) (msg : Msg) (e : Engine C R) :
    (∃ c', (e.conds c).Kept c' ∧
      (matchCond cfg c msg e = .ok none { e with conds := Function.update e.conds c c' } ∨
        ∃ err, matchCond cfg c msg e =
          .error err { e with conds := Function.update e.conds c c' })) ∨
    ∃ c₁ hitmap change te, (e.conds c).Kept c₁ ∧
      (e.conds c).hitmap.capture (cfg.cond c) msg msg.app c₁.tgt c₁.what =
        some (hitmap, change, te) ∧
      matchCond cfg c msg e = .ok (some change) { e with
        conds := Function.update e.conds c
          { c₁ with hitmap, catchedMessages := (e.conds c).catchedMessages + 1 }
        events := schedule c te e.events } := by
  simp only [matchCond, onCond, bind_apply, zoom]
  rcases Condition.matchMsg_cases cfg.lex (cfg.cond c) msg (e.conds c) with
    ⟨c', hkept, hm | ⟨err, hm⟩⟩ | ⟨c₁, hitmap, change, te, hkept, hcap, hm⟩
  · exact .inl ⟨c', hkept, .inl (by rw [hm]; rfl)⟩
  · exact .inl ⟨c', hkept, .inr ⟨err, by rw [hm]⟩⟩
  · refine .inr ⟨c₁, hitmap, change, te, hkept, hcap, ?_⟩
    rw [hm]
    rcases te with _ | ⟨ts, s, t⟩ <;> rfl

omit [LinearOrder R] in
theorem matchCond_rulesKept (c : C) (msg : Msg) : Moves RulesKept (matchCond cfg c msg) := by
  intro e
  rcases matchCond_cases cfg c msg e with
    ⟨c', -, h | ⟨err, h⟩⟩ | ⟨c₁, hitmap, change, te, -, -, h⟩
  · rw [final_ok h]
    exact ⟨rfl, rfl, rfl⟩
  · rw [final_error h]
    exact ⟨rfl, rfl, rfl⟩
  · rw [final_ok h]
    exact ⟨rfl, rfl, rfl⟩

omit [LinearOrder R] in
theorem matchConds_rulesKept (msg : Msg) (cs : List C) (l : Changed C) :
    Moves RulesKept (matchConds cfg msg cs l) :=
  moves_matchConds cfg pre_rulesKept (fun c => matchCond_rulesKept cfg c msg)
    (fun _ => moves_modify fun _ => ⟨rfl, rfl, rfl⟩) cs l

/-! ## The index maps -/

/-- The conditions of which the map of an argument changed. -/
def Changed.of (l : Changed C) (a : ArgT) : List C := if a = .source then l.source else l.target

omit [LinearOrder R] in
/-- Matching a condition changes a map of that condition only, and says so. -/
theorem matchCond_maps {c : C} {msg : Msg} {e e' : Engine C R} {r : Option Change}
    (h : matchCond cfg c msg e = .ok r e') (p : C × ArgT)
    (hp : p.1 = c → ∀ change, r = some change →
      (if p.2 = .source then change.source else change.target) = false) :
    SameMap e.conds e'.conds p := by
  unfold SameMap
  rcases matchCond_cases cfg c msg e with
    ⟨c', hkept, hm | ⟨err, hm⟩⟩ | ⟨c₁, hitmap, change, te, hkept, hcap, hm⟩ <;> rw [hm] at h
  · cases h
    refine update_frame (f := fun x : Condition => x.hitmap.args p.2) ?_ p.1
    rw [hkept.1]
  · cases h
  · cases h
    rcases eq_or_ne p.1 c with hc | hne
    · have hnew := hp hc change rfl
      obtain ⟨hs, ht, hsn, htn⟩ := Hitmap.capture_idx hcap
      simp only [hc, Function.update_self, Hitmap.args, hs, ht]
      split_ifs at hnew ⊢
      · rw [hsn] at hnew
        exact Hitmap.findIndex_old hnew
      · rw [htn] at hnew
        exact Hitmap.findIndex_old hnew
    · simp only [Function.update_of_ne hne]

omit [DecidableEq C] in
theorem Changed.mem_of_push {c c' : C} {change : Change} {l : Changed C} {a : ArgT} :
    c' ∈ (l.push c change).of a ↔ c' ∈ l.of a ∨
      c' = c ∧ (if a = .source then change.source else change.target) = true := by
  unfold Changed.of Changed.push
  split_ifs <;> simp_all

omit [LinearOrder R] in
/-- A map that the conditions of a feed have changed is among those they report. -/
theorem matchConds_maps {msg : Msg} : ∀ {cs : List C} {l l' : Changed C} {e e' : Engine C R},
    matchConds cfg msg cs l e = .ok l' e' → ∀ p : C × ArgT,
      (p.1 ∈ l.of p.2 → p.1 ∈ l'.of p.2) ∧
      (p.1 ∉ l'.of p.2 → SameMap e.conds e'.conds p)
  | [], l, l', e, e', h, p => by
    cases h
    exact ⟨id, fun _ => rfl⟩
  | c :: cs, l, l', e, e', h, p => by
    unfold matchConds at h
    obtain ⟨r, e₁, h₁, h⟩ := bind_ok.1 h
    have hmap := matchCond_maps cfg h₁ p
    cases r with
    | none =>
      obtain ⟨hmem, hsame⟩ := matchConds_maps h p
      refine ⟨hmem, fun hp => (hsame hp).trans (hmap fun _ _ h => ?_)⟩
      cases h
    | some change =>
      obtain ⟨⟨⟩, e₂, h₂, h⟩ := bind_ok.1 h
      cases h₂
      obtain ⟨hmem, hsame⟩ := matchConds_maps h p
      rw [Changed.mem_of_push] at hmem
      refine ⟨fun hp => hmem (.inl hp), fun hp => (hsame hp).trans (hmap fun hc _ h => ?_)⟩
      cases h
      by_contra htrue
      exact hp (hmem (.inr ⟨hc, by simpa using htrue⟩))

/-- A feed evaluates the domains of every rule with a clause that names a changed map. -/
theorem mem_notifyDomain {l : Changed C} {r : R} {p : C × ArgT}
    (hp : p ∈ (cfg.rule r).domainExpr.args) (hl : p.1 ∈ l.of p.2) : r ∈ notifyDomain cfg l := by
  unfold notifyDomain
  simp only [Config.mem_mergeNotifyList, Config.mem_notifyList, List.not_mem_nil, false_or]
  obtain ⟨c, a⟩ := p
  rcases DomainCond.source_or_targetOr (cfg.rule r).domainGrammatical _ hp with ha | ha <;>
    simp only at ha <;> subst ha
  · exact .inl ⟨c, hl, hp⟩
  · exact .inr ⟨c, hl, hp⟩

/-! ## The domains -/

omit [LinearOrder R] in
theorem exists_domains (conds : C → Condition) : ∃ ds : R → Domains, ∀ r,
    (cfg.rule r).domainExpr.evaluate conds (cfg.rule r).conditions [] = .ok (ds r) := by
  choose ds hds using fun r => (cfg.rule r).domainExpr_evaluate_spec conds
  exact ⟨ds, fun r => (hds r).1⟩

/-- The domains of the rules `rs` are `ds`. -/
def setDomains (rs : List R) (ds : R → Domains) (e : Engine C R) : Engine C R :=
  { e with rules := fun r => if r ∈ rs then { e.rules r with domains := ds r } else e.rules r }

theorem evaluateRulesDomain_ok {ds : R → Domains} : ∀ (rs : List R) (e : Engine C R),
    (∀ r, (cfg.rule r).domainExpr.evaluate e.conds (cfg.rule r).conditions [] = .ok (ds r)) →
    evaluateRulesDomain cfg rs e = .ok () (setDomains rs ds e)
  | [], e, _ => by simp [evaluateRulesDomain, setDomains]
  | r :: rs, e, h => by
    have hr : onRule cfg r (fun V => Rule.evaluateDomain (cfg.rule r) V) e = .ok ()
        { e with rules := Function.update e.rules r { e.rules r with domains := ds r } } := by
      rw [onRule_apply, Rule.evaluateDomain_apply _ _ (h r)]
    have ih := evaluateRulesDomain_ok rs
      { e with rules := Function.update e.rules r { e.rules r with domains := ds r } } h
    simp only [evaluateRulesDomain, bind_apply, hr, ih, EStateM.Result.ok.injEq, true_and,
      setDomains, Engine.mk.injEq, and_true]
    funext r'
    rcases eq_or_ne r' r with rfl | hne
    · simp
    · simp [hne]

end Engine

end MfExtensions
