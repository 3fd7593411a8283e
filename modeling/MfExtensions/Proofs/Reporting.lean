import MfExtensions.Proofs.AlarmKeys
import MfExtensions.Proofs.Primitive

/-!
# Reporting an alarm

An evaluation does what the terms it visits do, one after the other (`evaluateOr_visits`). They make
the entries of its alarm, so the entry of a condition is the one of its last function or, where no
function gives it one, the cell assigned to it (`entry_made`). The message of an alarm can be
rendered if and only if the terms of the conditions it names are visited and what it asks of each
of them is known (`alarm_reported_iff`).
-/

namespace MfExtensions

open Exec

variable {C R : Type} [DecidableEq C] [LinearOrder R]

/-! ## The terms visited -/

section Visits

variable (V : View C) (order : List C) (value domain : Domain)

mutual

/-- The terms of an expression that are evaluated from a state, each with its function or as a
primitive condition. -/
def BooleanCond.visits : BooleanCond C → EvalState → List (C × Option ExtFunc)
  | .expr e, s => BooleanCond.visitsOr e s
  | .cond c, _ => [(c, none)]
  | .func c f _, _ => [(c, some f)]

def BooleanCond.visitsAnd : List (BooleanCond C) → EvalState → List (C × Option ExtFunc)
  | [], _ => []
  | b :: bs, s =>
    let x := b.evaluate V order value domain
    b.visits s ++ if value? x s = some true then BooleanCond.visitsAnd bs (final x s) else []

def BooleanCond.visitsOr : List (List (BooleanCond C)) → EvalState → List (C × Option ExtFunc)
  | [], _ => []
  | a :: as, s =>
    let x := BooleanCond.evaluateAnd V order value domain a
    BooleanCond.visitsAnd a s ++
      if value? x s = some false then BooleanCond.visitsOr as (final x s) else []

end

mutual

/-- An evaluation comes to the terms in the order of the expression, to each once at most. -/
theorem visits_sublist : ∀ (b : BooleanCond C) (s : EvalState),
    (b.visits V order value domain s).Sublist b.leaves
  | .expr e, s => visitsOr_sublist e s
  | .cond _, _ => .refl _
  | .func _ _ _, _ => .refl _

theorem visitsAnd_sublist : ∀ (bs : List (BooleanCond C)) (s : EvalState),
    (BooleanCond.visitsAnd V order value domain bs s).Sublist (BooleanCond.leavesAnd bs)
  | [], _ => .refl _
  | b :: bs, s => by
    refine (visits_sublist b s).append ?_
    split_ifs
    · exact visitsAnd_sublist bs _
    · exact List.nil_sublist _

theorem visitsOr_sublist : ∀ (e : List (List (BooleanCond C))) (s : EvalState),
    (BooleanCond.visitsOr V order value domain e s).Sublist (BooleanCond.leavesOr e)
  | [], _ => .refl _
  | a :: as, s => by
    refine (visitsAnd_sublist a s).append ?_
    split_ifs
    · exact visitsOr_sublist as _
    · exact List.nil_sublist _

end

/-- Put the entry of a term into an alarm: a primitive condition only where there is none. -/
def putTerm (alarm : Domain) (p : C × Option ExtFunc) : Domain :=
  match p.2 with
  | none => putCell order value alarm p.1
  | some f => alarm.set (order.idxOf p.1)
      (f.alarmEntry (V.conds p.1) (domain.at (order.idxOf p.1)))

/-- What visiting a term makes of the state. -/
def visit (s : EvalState) (p : C × Option ExtFunc) : EvalState where
  alarm := putTerm V order value domain s.alarm p
  sync := match p.2 with
    | none => s.sync
    | some f => final (f.evaluate V (V.conds p.1) (domain.at (order.idxOf p.1))) s.sync

mutual

theorem evaluate_visits : ∀ (b : BooleanCond C) (s : EvalState),
    final (b.evaluate V order value domain) s =
      (b.visits V order value domain s).foldl (visit V order value domain) s
  | .expr e, s => evaluateOr_visits e s
  | .cond c, s => by
    simp only [BooleanCond.evaluate, BooleanCond.visits, final, bind_apply, modify_apply,
      pure_apply, List.foldl_cons, List.foldl_nil, visit, putTerm, putCell]
    split_ifs <;> rfl
  | .func c f rhv, s => by
    simp only [BooleanCond.evaluate, BooleanCond.visits, List.foldl_cons, List.foldl_nil]
    rw [final_bind_ok (modify_apply _ s)]
    rcases hx : f.evaluate V (V.conds c) (domain.at (order.idxOf c)) s.sync with
      ⟨v, sync⟩ | ⟨e, sync⟩
    · simp only [final, bind_apply, zoom, visit, putTerm, hx]
      cases rhv.test v <;> rfl
    · simp only [final, bind_apply, zoom, visit, putTerm, hx]

theorem evaluateAnd_visits : ∀ (bs : List (BooleanCond C)) (s : EvalState),
    final (BooleanCond.evaluateAnd V order value domain bs) s =
      (BooleanCond.visitsAnd V order value domain bs s).foldl (visit V order value domain) s
  | [], _ => rfl
  | b :: bs, s => by
    have hb := evaluate_visits b s
    rw [BooleanCond.visitsAnd, List.foldl_append, ← hb, BooleanCond.evaluateAnd]
    rcases hx : b.evaluate V order value domain s with ⟨_ | _, s'⟩ | ⟨e, s'⟩
    · rw [final_bind_ok hx, value?_of_ok hx, final_ok hx]
      rfl
    · rw [final_bind_ok hx, value?_of_ok hx, final_ok hx]
      exact evaluateAnd_visits bs s'
    · rw [final_bind_error hx, final_error hx]
      simp [value?_of_error hx]

theorem evaluateOr_visits : ∀ (e : List (List (BooleanCond C))) (s : EvalState),
    final (BooleanCond.evaluateOr V order value domain e) s =
      (BooleanCond.visitsOr V order value domain e s).foldl (visit V order value domain) s
  | [], _ => rfl
  | a :: as, s => by
    have ha := evaluateAnd_visits a s
    rw [BooleanCond.visitsOr, List.foldl_append, ← ha, BooleanCond.evaluateOr]
    rcases hx : BooleanCond.evaluateAnd V order value domain a s with ⟨_ | _, s'⟩ | ⟨e, s'⟩
    · rw [final_bind_ok hx, value?_of_ok hx, final_ok hx]
      exact evaluateOr_visits as s'
    · rw [final_bind_ok hx, value?_of_ok hx, final_ok hx]
      rfl
    · rw [final_bind_error hx, final_error hx]
      simp [value?_of_error hx]

end

/-- So the alarm is made by the terms visited. -/
theorem evaluateOr_alarm (e : List (List (BooleanCond C))) (s : EvalState) :
    (final (BooleanCond.evaluateOr V order value domain e) s).alarm =
      (BooleanCond.visitsOr V order value domain e s).foldl (putTerm V order value domain)
        s.alarm := by
  rw [evaluateOr_visits]
  exact (List.foldl_hom EvalState.alarm fun _ _ => rfl).symm

end Visits

/-! ## The entry of a condition -/

namespace Condition

variable (x : Condition)

/-- The entry a term of the condition makes of its cell `v` and its domain `d`. -/
def entry (v d : CondDomain) : Option ExtFunc → CondDomain
  | none => v
  | some f => f.alarmEntry x d

/-- The entry made by a term, null if there is none. -/
def made (v d : CondDomain) : Option (Option ExtFunc) → CondDomain
  | none => condDomainCtorNull
  | some o => x.entry v d o

/-- The term an entry is from after one more term: a primitive condition replaces only an entry
with a `D_NIL`. -/
def remake (d : CondDomain) : Option (Option ExtFunc) → Option ExtFunc → Option (Option ExtFunc)
  | some (some f), none =>
    if condDomainIsNull (f.alarmEntry x d) then some none else some (some f)
  | _, p => some p

theorem remake_cases (d : CondDomain) (o : Option (Option ExtFunc)) (f : Option ExtFunc) :
    x.remake d o f = o ∨ x.remake d o f = some f := by
  rcases f with _ | f
  · rcases o with _ | _ | g
    · exact .inr rfl
    · exact .inr rfl
    · simp only [remake]
      cases condDomainIsNull (g.alarmEntry x d) with
      | true => exact .inr rfl
      | false => exact .inl rfl
  · rcases o with _ | _ | g <;> exact .inr rfl

theorem made_remake (v d : CondDomain) (o : Option (Option ExtFunc)) (f : Option ExtFunc) :
    x.made v d (x.remake d o f) =
      if f = none ∧ condDomainIsNull (x.made v d o) = false then x.made v d o
      else x.entry v d f := by
  rcases f with _ | f
  · rcases o with _ | _ | g
    · rfl
    · simp [remake, made]
    · simp only [remake, made, entry, true_and]
      cases condDomainIsNull (g.alarmEntry x d) <;> rfl
  · rcases o with _ | _ | g <;> rfl

end Condition

/-- The term that makes the alarm entry of `c`, if one of it is visited. -/
def maker (V : View C) (c : C) (d : CondDomain) (l : List (C × Option ExtFunc)) :
    Option (Option ExtFunc) :=
  (l.filter fun p => p.1 = c).foldl (fun o p => (V.conds c).remake d o p.2) none

section Maker

variable {V : View C} {order : List C} {value domain : Domain}

theorem length_putTerm (alarm : Domain) (p : C × Option ExtFunc) :
    (putTerm V order value domain alarm p).length = alarm.length := by
  obtain ⟨c, f⟩ := p
  cases f with
  | none =>
    unfold putTerm putCell
    simp only
    split_ifs <;> simp
  | some f => simp [putTerm]

theorem putTerm_at {alarm : Domain} {p : C × Option ExtFunc} (hp : order.idxOf p.1 < alarm.length)
    {c : C} (hc : c ∈ order) :
    (putTerm V order value domain alarm p).at (order.idxOf c) =
      if p.1 = c then
        if p.2 = none ∧ condDomainIsNull (alarm.at (order.idxOf c)) = false then
          alarm.at (order.idxOf c)
        else (V.conds c).entry (value.at (order.idxOf c)) (domain.at (order.idxOf c)) p.2
      else alarm.at (order.idxOf c) := by
  obtain ⟨c', f⟩ := p
  rcases eq_or_ne c' c with rfl | hne
  · cases f with
    | none =>
      simp only [putTerm, putCell, Condition.entry, if_true, true_and]
      cases hnull : condDomainIsNull (alarm.at (order.idxOf c')) with
      | true => simp [Domain.at_set _ hp]
      | false => simp
    | some f => simp [putTerm, Domain.at_set _ hp, Condition.entry]
  · have hidx : order.idxOf c' ≠ order.idxOf c := fun h =>
      hne ((List.idxOf_inj hc).1 h.symm).symm
    simp only [if_neg hne]
    cases f with
    | none =>
      simp only [putTerm, putCell]
      split_ifs
      · rw [Domain.at_set _ hp, if_neg hidx]
      · rfl
    | some f => simp only [putTerm, Domain.at_set _ hp, if_neg hidx]

variable (V value domain) in
/-- The entry of a condition in the alarm is the one its maker makes. -/
theorem entry_made {n : ℕ} (hn : n = order.length) {c : C} (hc : c ∈ order)
    {l : List (C × Option ExtFunc)} (hl : ∀ p ∈ l, p.1 ∈ order) :
    (l.foldl (putTerm V order value domain) (domainCtorNullOf n)).at (order.idxOf c) =
      (V.conds c).made (value.at (order.idxOf c)) (domain.at (order.idxOf c))
        (maker V c (domain.at (order.idxOf c)) l) := by
  have hfold : ∀ (l : List (C × Option ExtFunc)), (∀ p ∈ l, p.1 ∈ order) →
      ∀ (alarm : Domain) (o : Option (Option ExtFunc)), alarm.length = order.length →
      alarm.at (order.idxOf c) =
        (V.conds c).made (value.at (order.idxOf c)) (domain.at (order.idxOf c)) o →
      (l.foldl (putTerm V order value domain) alarm).at (order.idxOf c) =
        (V.conds c).made (value.at (order.idxOf c)) (domain.at (order.idxOf c))
          ((l.filter fun p => p.1 = c).foldl
            (fun o p => (V.conds c).remake (domain.at (order.idxOf c)) o p.2) o) := by
    intro l
    induction l with
    | nil => exact fun _ _ _ _ h => h
    | cons p l ih =>
      intro hl alarm o hlen h
      have hp : order.idxOf p.1 < alarm.length :=
        hlen ▸ List.idxOf_lt_length_of_mem (hl p List.mem_cons_self)
      have ih := ih (fun q hq => hl q (List.mem_cons_of_mem _ hq))
        (putTerm V order value domain alarm p)
      rw [length_putTerm] at ih
      rw [List.foldl_cons]
      by_cases hpc : p.1 = c
      · rw [List.filter_cons_of_pos (by simpa using hpc), List.foldl_cons]
        refine ih _ hlen ?_
        rw [putTerm_at hp hc, if_pos hpc, Condition.made_remake, h]
      · rw [List.filter_cons_of_neg (by simpa using hpc)]
        refine ih _ hlen ?_
        rw [putTerm_at hp hc, if_neg hpc, h]
  refine hfold l hl _ none (by simp [domainCtorNullOf, hn]) ?_
  simp only [Domain.at, List.getD, domainCtorNullOf, List.getElem?_replicate]
  split_ifs <;> rfl

/-- The maker of an entry is a term that is visited. -/
theorem mem_of_maker {c : C} {d : CondDomain} {l : List (C × Option ExtFunc)}
    {o : Option ExtFunc} (h : maker V c d l = some o) : (c, o) ∈ l := by
  have hfold : ∀ (l : List (C × Option ExtFunc)) (a : Option (Option ExtFunc)),
      l.foldl (fun o p => (V.conds c).remake d o p.2) a = some o →
      a = some o ∨ ∃ p ∈ l, p.2 = o := by
    intro l
    induction l with
    | nil => exact fun a h => .inl h
    | cons p l ih =>
      intro a h
      rcases ih _ h with ha | ⟨q, hq, hqo⟩
      · rcases (V.conds c).remake_cases d a p.2 with heq | heq
        · exact .inl (heq ▸ ha)
        · exact .inr ⟨p, List.mem_cons_self, Option.some_inj.1 (heq.symm.trans ha)⟩
      · exact .inr ⟨q, List.mem_cons_of_mem _ hq, hqo⟩
  obtain ⟨p, hp, rfl⟩ := (hfold _ none h).resolve_left (by simp)
  obtain ⟨hmem, hc⟩ := List.mem_filter.1 hp
  rw [decide_eq_true_eq] at hc
  exact hc ▸ hmem

end Maker

/-! ## What a message can ask of an entry -/

/-- The index has a name in the map; `D_ANY` has one in a map that is not empty. -/
def IdxMap.Names (m : IdxMap) (i : ℤ) : Prop :=
  if i = dAny then m ≠ OrdMap.empty else unsigned i < m.size

theorem nameOf_ok_iff {nilMsg : String} {m : IdxMap} (hm : m.Numbered) {i : ℤ} (hi : i ≠ dNil) :
    (∃ s, Hitmap.nameOf nilMsg m i = .ok s) ↔ m.Names i := by
  unfold Hitmap.nameOf IdxMap.Names
  rcases hentries : m.entries with _ | ⟨e, es⟩
  · have hempty : m = OrdMap.empty := OrdMap.ext hentries
    simp [hempty]
  · have hne : m ≠ OrdMap.empty := fun h => by simp [h] at hentries
    simp only [hi, if_false]
    split_ifs with h₁ h₂
    · exact ⟨fun _ => hne, fun _ => ⟨_, rfl⟩⟩
    · exact iff_of_false (by simp) (not_lt.2 h₂)
    · have hlt := not_le.1 h₂
      refine iff_of_true ?_ hlt
      obtain ⟨e', he', heq⟩ := hm.exists_entry hlt
      rw [← hentries]
      cases hf : m.entries.find? fun e => e.2 = unsigned i with
      | some e'' => exact ⟨_, rfl⟩
      | none =>
        rw [List.find?_eq_none] at hf
        exact absurd heq (by simpa using hf e' he')

theorem findArg_eq_nil_iff {h : Hitmap} {name : String} {a : ArgT} :
    h.findArg name a = dNil ↔ (h.args a).find? name = none := by
  unfold Hitmap.findArg
  cases (h.args a).find? name with
  | none => simp
  | some i => exact iff_of_false (by simp only [dNil]; omega) (by simp)

theorem names_findArg {h : Hitmap} {name : String} {a : ArgT} (hm : (h.args a).Numbered)
    (hf : h.findArg name a ≠ dNil) : (h.args a).Names (h.findArg name a) := by
  rw [ne_eq, findArg_eq_nil_iff] at hf
  obtain ⟨i, hi⟩ := Option.ne_none_iff_exists'.1 hf
  have hlt : i < (h.args a).size := hm.lt _ (OrdMap.find?_eq_some_iff.1 hi)
  have hi' : h.findArg name a = i := by rw [Hitmap.findArg, hi]
  have hany : (i : ℤ) ≠ dAny := by
    unfold dAny
    omega
  rw [hi', IdxMap.Names, if_neg hany, unsigned]
  omega

theorem nameOf_findArg_ok_iff {h : Hitmap} {nilMsg name : String} {a : ArgT}
    (hm : (h.args a).Numbered) :
    (∃ s, Hitmap.nameOf nilMsg (h.args a) (h.findArg name a) = .ok s) ↔
      (h.args a).find? name ≠ none := by
  by_cases hf : h.findArg name a = dNil
  · refine iff_of_false ?_ (not_not.2 (findArg_eq_nil_iff.1 hf))
    rw [hf, Hitmap.nameOf]
    cases (h.args a).entries <;> simp
  · rw [nameOf_ok_iff hm hf]
    exact iff_of_true (names_findArg hm hf) (findArg_eq_nil_iff.not.1 hf)

namespace Hitmap

variable {h : Hitmap} {y : CondDomain}

/-- A message is read from the cell of an entry, index 0 for `D_ANY`. -/
theorem cellOf_ok_iff {c : Cell} : h.cellOf y = .ok c ↔
    (h.Captured ∧ condDomainIsNull y = false) ∧ h.cells y.1.toNat y.2.toNat = c := by
  have hfirst : ∀ i : ℤ, (if i = dAny then 0 else i).toNat = i.toNat := by
    intro i
    split_ifs with hi
    · rw [hi]
      rfl
    · rfl
  have hcaptured : h.Captured ↔ (h.srcIdx.isEmpty || h.tgtIdx.isEmpty) = false := by
    rw [Bool.or_eq_false_iff, ← Bool.not_eq_true, ← Bool.not_eq_true, OrdMap.isEmpty_iff,
      OrdMap.isEmpty_iff]
    rfl
  unfold cellOf
  rw [hcaptured]
  cases h.srcIdx.isEmpty || h.tgtIdx.isEmpty <;> cases condDomainIsNull y <;> simp [hfirst]

theorem message_ok_iff : (∃ s, h.message y = .ok s) ↔
    (h.Captured ∧ condDomainIsNull y = false) ∧ (h.cells y.1.toNat y.2.toNat).msgs ≠ [] := by
  simp only [message, except_bind_ok, cellOf_ok_iff, Cell.latestMessage]
  constructor
  · rintro ⟨s, c, ⟨hy, rfl⟩, hs⟩
    refine ⟨hy, fun hnil => ?_⟩
    simp [hnil] at hs
  · rintro ⟨hy, hne⟩
    refine ⟨((h.cells y.1.toNat y.2.toNat).msgs.getLast hne).text, _, ⟨hy, rfl⟩, ?_⟩
    rw [List.getLast?_eq_some_getLast hne]

theorem messageGroup_ok_iff {texts : Texts} {n : ℕ} : (∃ s, h.messageGroup texts y n = .ok s) ↔
    (h.Captured ∧ condDomainIsNull y = false) ∧ (h.cells y.1.toNat y.2.toNat).what.subs ≠ [] ∧
      n ≤ (h.cells y.1.toNat y.2.toNat).what.subs.length := by
  simp only [messageGroup, except_bind_ok, cellOf_ok_iff, Cell.messageGroup, Smatch.sub]
  constructor
  · rintro ⟨s, c, ⟨hy, rfl⟩, hs⟩
    split_ifs at hs with hn hw
    exact ⟨hy, by simpa using hw, not_lt.1 hn⟩
  · rintro ⟨hy, hne, hn⟩
    exact ⟨_, _, ⟨hy, rfl⟩, (if_neg (not_lt.2 hn)).trans (if_neg (by simpa using hne))⟩

end Hitmap

namespace Condition

variable (x : Condition)

/-- The source of an entry made by a term is known: for `is_syncd` the last source is among the
names, for the others the index. -/
def KnowsSource (v d : CondDomain) : Option ExtFunc → Prop
  | some (.isSyncd _) => x.hitmap.srcIdx.find? x.lastSrc ≠ none
  | o => x.hitmap.srcIdx.Names (x.entry v d o).1

def KnowsTarget (v d : CondDomain) : Option ExtFunc → Prop
  | some (.isSyncd _) => x.hitmap.tgtIdx.find? x.lastTgt ≠ none
  | o => x.hitmap.tgtIdx.Names (x.entry v d o).2

/-- The entry has a cell: for `is_syncd` the last source and target are among the names, for the
others a message was captured. -/
def KnowsCell : Option ExtFunc → Prop
  | some (.isSyncd _) => x.hitmap.srcIdx.find? x.lastSrc ≠ none ∧
      x.hitmap.tgtIdx.find? x.lastTgt ≠ none
  | _ => x.hitmap.Captured

/-- What a message asks of an entry made by a term is known. -/
def Knows (v d : CondDomain) (o : Option ExtFunc) : ArgT → Prop
  | .source => x.KnowsSource v d o
  | .target => x.KnowsTarget v d o
  | .message => x.KnowsCell o ∧
      (x.hitmap.cells (x.entry v d o).1.toNat (x.entry v d o).2.toNat).msgs ≠ []
  | .group n => x.KnowsCell o ∧
      (x.hitmap.cells (x.entry v d o).1.toNat (x.entry v d o).2.toNat).what.subs ≠ [] ∧
      n ≤ (x.hitmap.cells (x.entry v d o).1.toNat (x.entry v d o).2.toNat).what.subs.length
  | .none => False

variable {x} {v d : CondDomain} {o : Option ExtFunc}

section Arg

variable (hw : x.hitmap.WF)
  (ho : (∀ obj, o ≠ some (.isSyncd obj)) → condDomainIsNull (x.entry v d o) = false)

include hw ho

theorem source_ok_iff : (∃ s, x.arg (x.entry v d o) .source = .ok s) ↔ x.KnowsSource v d o := by
  by_cases hs : ∃ obj, o = some (.isSyncd obj)
  · obtain ⟨obj, rfl⟩ := hs
    exact nameOf_findArg_ok_iff (a := .source) hw.src
  · have hn := ho fun obj hobj => hs ⟨obj, hobj⟩
    simp only [condDomainIsNull, Bool.or_eq_false_iff, decide_eq_false_iff_not] at hn
    refine (nameOf_ok_iff hw.src hn.1).trans ?_
    rcases o with _ | _ | _ | obj
    · rfl
    · rfl
    · rfl
    · exact absurd ⟨obj, rfl⟩ hs

theorem target_ok_iff : (∃ s, x.arg (x.entry v d o) .target = .ok s) ↔ x.KnowsTarget v d o := by
  by_cases hs : ∃ obj, o = some (.isSyncd obj)
  · obtain ⟨obj, rfl⟩ := hs
    exact nameOf_findArg_ok_iff (a := .target) hw.tgt
  · have hn := ho fun obj hobj => hs ⟨obj, hobj⟩
    simp only [condDomainIsNull, Bool.or_eq_false_iff, decide_eq_false_iff_not] at hn
    refine (nameOf_ok_iff hw.tgt hn.2).trans ?_
    rcases o with _ | _ | _ | obj
    · rfl
    · rfl
    · rfl
    · exact absurd ⟨obj, rfl⟩ hs

omit hw in
theorem knowsCell_iff : x.KnowsCell o ↔
    x.hitmap.Captured ∧ condDomainIsNull (x.entry v d o) = false := by
  by_cases hs : ∃ obj, o = some (.isSyncd obj)
  · obtain ⟨obj, rfl⟩ := hs
    have hne : ∀ (m : IdxMap) (name : String), m.find? name ≠ none → m ≠ OrdMap.empty := by
      intro m name hf hm
      simp [hm] at hf
    simp only [KnowsCell, entry, ExtFunc.alarmEntry, ExtFunc.groupedAlarm, condDomainIsNull,
      Bool.false_eq_true, if_false, Bool.or_eq_false_iff, decide_eq_false_iff_not,
      findArg_eq_nil_iff]
    exact ⟨fun h => ⟨⟨hne _ _ h.1, hne _ _ h.2⟩, h⟩, fun h => h.2⟩
  · have hn := ho fun obj hobj => hs ⟨obj, hobj⟩
    rw [hn]
    rcases o with _ | _ | _ | obj
    · simp [KnowsCell]
    · simp [KnowsCell]
    · simp [KnowsCell]
    · exact absurd ⟨obj, rfl⟩ hs

omit hw ho in
/-- Of a null entry nothing can be read. -/
theorem arg_null (a : ArgT) : ¬∃ s, x.arg condDomainCtorNull a = .ok s := by
  have hname : ∀ nilMsg m, ¬∃ s, Hitmap.nameOf nilMsg m dNil = .ok s := by
    intro nilMsg m
    rw [Hitmap.nameOf]
    cases m.entries <;> simp
  cases a with
  | source => exact hname _ _
  | target => exact hname _ _
  | message => exact fun h => absurd (Hitmap.message_ok_iff.1 h).1.2 (by decide)
  | group n => exact fun h => absurd (Hitmap.messageGroup_ok_iff.1 h).1.2 (by decide)
  | none => simp [arg]

/-- What a message asks of an entry can be read if and only if it is known. -/
theorem arg_ok_iff (a : ArgT) : (∃ s, x.arg (x.entry v d o) a = .ok s) ↔ x.Knows v d o a := by
  cases a with
  | source => exact source_ok_iff hw ho
  | target => exact target_ok_iff hw ho
  | message => exact Hitmap.message_ok_iff.trans (and_congr_left' (knowsCell_iff ho).symm)
  | group n => exact Hitmap.messageGroup_ok_iff.trans (and_congr_left' (knowsCell_iff ho).symm)
  | none => exact iff_of_false (by simp [arg]) id

end Arg

end Condition

/-! ## The message of an alarm -/

theorem RichMsg.message_ok_iff (k : RuleConfig C) (V : View C) {m : RichMsg C} {r : Rule C}
    {alarm : Domain} (hr : r.getAlarm = .ok alarm) :
    (∃ s, m.message k V r = .ok s) ↔ ∀ s ∈ m.symbols, ∃ t,
      (V.conds s.2.1).arg (alarm.at (k.conditions.idxOf s.2.1)) s.2.2 = .ok t := by
  have hins : ∀ l : List (ℕ × C × ArgT),
      (∃ s, insertSymbols k V alarm m.strippedMsg l = .ok s) ↔ ∀ s ∈ l, ∃ t,
        (V.conds s.2.1).arg (alarm.at (k.conditions.idxOf s.2.1)) s.2.2 = .ok t := by
    intro l
    induction l with
    | nil => simp [insertSymbols]
    | cons s l ih =>
      rw [List.forall_mem_cons, ← ih]
      simp only [insertSymbols, except_bind_ok]
      constructor
      · rintro ⟨-, result, hresult, t, ht, -⟩
        exact ⟨⟨t, ht⟩, result, hresult⟩
      · rintro ⟨⟨t, ht⟩, result, hresult⟩
        exact ⟨_, result, hresult, t, ht, rfl⟩
  simp only [message, hr]
  exact hins m.symbols

namespace Rule

variable (k : RuleConfig C) (V : View C)

/-- A message can tell an assignment: of each condition it names a term is visited that makes an
alarm entry of which is known what the message asks. -/
def Reports (m : RichMsg C) (sync : ℕ → SyncTable) (p : Domain × Domain) : Prop :=
  ∀ s ∈ m.symbols, ∃ o,
    maker V s.2.1 (p.1.at (k.conditions.idxOf s.2.1))
      (BooleanCond.visitsOr V k.conditions p.2 p.1 k.booleanExpr
        ⟨domainCtorNullOf p.1.length, sync⟩) = some o ∧
    (V.conds s.2.1).Knows (p.2.at (k.conditions.idxOf s.2.1))
      (p.1.at (k.conditions.idxOf s.2.1)) o s.2.2

/-- The alarm that is reported is the one the expression made. -/
theorem booleanEvaluate_getAlarm {now : ℤ} {p : Domain × Domain} {r r' : Rule C}
    (h : booleanEvaluate k V now p.2 p.1 r = .ok true r') :
    ∃ s, k.booleanExpr.evaluate V k.conditions p.2 p.1 ⟨domainCtorNullOf p.1.length, r.sync⟩ =
      .ok true s ∧ r'.getAlarm = .ok s.alarm := by
  rw [booleanEvaluate_apply] at h
  rcases he : k.booleanExpr.evaluate V k.conditions p.2 p.1
    ⟨domainCtorNullOf p.1.length, r.sync⟩ with ⟨_ | _, s⟩ | ⟨e, s⟩ <;> rw [he] at h
  · simp at h
  · refine ⟨s, rfl, ?_⟩
    rcases hl : r.alarms.lookup s.alarm with _ | lt
    · simp only [hl, EStateM.Result.ok.injEq, true_and] at h
      subst h
      simp [getAlarm, raise]
    · have hne : r.alarms ≠ [] := fun hnil => by simp [hnil] at hl
      simp only [hl] at h
      split_ifs at h
      · simp only [EStateM.Result.ok.injEq, true_and] at h
        subst h
        simp [getAlarm, hne]
      · simp at h
  · simp at h

/-- What fails while the assignments are tried changes only the tables of the functions. -/
theorem booleanEvaluate_sync {now : ℤ} {p : Domain × Domain} {r r' : Rule C}
    (h : booleanEvaluate k V now p.2 p.1 r = .ok false r') : ∃ sync, r' = { r with sync } := by
  rw [booleanEvaluate_apply] at h
  rcases he : k.booleanExpr.evaluate V k.conditions p.2 p.1
    ⟨domainCtorNullOf p.1.length, r.sync⟩ with ⟨_ | _, s⟩ | ⟨e, s⟩ <;> rw [he] at h
  · simp only [EStateM.Result.ok.injEq, true_and] at h
    exact ⟨s.sync, h.symm⟩
  · rcases hl : r.alarms.lookup s.alarm with _ | lt <;> simp only [hl] at h
    · simp at h
    · split_ifs at h
      · simp at h
      · simp only [EStateM.Result.ok.injEq, true_and] at h
        exact ⟨s.sync, h.symm⟩
  · simp at h

theorem entry_not_null {r : Rule C} (hwf : r.WF k) {p : Domain × Domain} (hp : p ∈ tries k V r)
    {c : C} {o : Option ExtFunc} (hc : (c, o) ∈ k.booleanExpr.leaves)
    (ho : ∀ obj, o ≠ some (.isSyncd obj)) :
    condDomainIsNull ((V.conds c).entry (p.2.at (k.conditions.idxOf c))
      (p.1.at (k.conditions.idxOf c)) o) = false := by
  have hcond : c ∈ k.conditions := k.mem_conditions.2 (List.mem_map_of_mem hc)
  obtain ⟨hd, hvalue⟩ := (mem_tries k V).1 hp
  have hproper := hwf.proper p.1 hd
  have hn := hproper.at_not_null (List.idxOf_lt_length_of_mem hcond)
  rcases o with _ | _ | _ | obj
  · obtain ⟨primitive, hreg, hcell⟩ := assigned k V hproper.length hvalue hcond
    rw [k.registered_primitive hc hreg, mem_cells V c hn] at hcell
    simp only [condDomainIsNull, Bool.or_eq_false_iff, decide_eq_false_iff_not] at hn ⊢
    simp only [Condition.entry, dNil] at *
    split_ifs at hcell <;> omega
  · exact hn
  · exact hn
  · exact absurd rfl (ho obj)

/-- The message of an alarm an assignment raised can be rendered if and only if it can tell the
assignment. -/
theorem message_reports_iff {r r' : Rule C} (hw : ∀ c, (V.conds c).hitmap.WF) (hwf : r.WF k)
    {p : Domain × Domain} (hp : p ∈ tries k V r) {now : ℤ} {sync : ℕ → SyncTable}
    (h : booleanEvaluate k V now p.2 p.1 { r with sync } = .ok true r') :
    (∃ s, k.alarmMsg.message k V r' = .ok s) ↔ Reports k V k.alarmMsg sync p := by
  obtain ⟨s, hs, halarm⟩ := booleanEvaluate_getAlarm k V h
  have hlen := (hwf.proper p.1 ((mem_tries k V).1 hp).1).length
  have hmade := evaluateOr_alarm V k.conditions p.2 p.1 k.booleanExpr
    ⟨domainCtorNullOf p.1.length, sync⟩
  rw [final_ok hs] at hmade
  rw [RichMsg.message_ok_iff k V halarm]
  refine forall₂_congr fun t ht => ?_
  obtain ⟨q, hq, hqt⟩ := List.mem_map.1 (k.symbols_mem _ List.mem_cons_self t ht)
  have hc : t.2.1 ∈ k.conditions := k.mem_conditions.2 (hqt ▸ List.mem_map_of_mem hq)
  have hleaves : ∀ q ∈ BooleanCond.visitsOr V k.conditions p.2 p.1 k.booleanExpr
      ⟨domainCtorNullOf p.1.length, sync⟩, q ∈ k.booleanExpr.leaves := fun q hq =>
    (visitsOr_sublist V k.conditions p.2 p.1 k.booleanExpr _).subset hq
  rw [hmade, entry_made V p.2 p.1 hlen hc fun q hq =>
    k.mem_conditions.2 (List.mem_map_of_mem (hleaves q hq))]
  rcases ho : maker V t.2.1 (p.1.at (k.conditions.idxOf t.2.1)) (BooleanCond.visitsOr V
    k.conditions p.2 p.1 k.booleanExpr ⟨domainCtorNullOf p.1.length, sync⟩) with _ | o
  · exact iff_of_false (Condition.arg_null t.2.2) (by simp)
  · simp only [Condition.made, Option.some_inj, exists_eq_left']
    exact Condition.arg_ok_iff (hw t.2.1)
      (fun hobj => entry_not_null k V hwf hp (hleaves _ (mem_of_maker ho)) hobj) t.2.2

end Rule

namespace Engine

variable {cfg : Config C R} {e : Engine C R}

/-- When a rule raises an alarm, an assignment raised it, and the message can be rendered if and
only if it can tell that assignment. -/
theorem alarm_reported_iff (h : Passed cfg e) (r : R) {now : ℤ} {rl : Rule C}
    (hev : Rule.evaluate (cfg.rule r) (cfg.view e) now (e.rules r) = .ok true rl) :
    ∃ p ∈ Rule.tries (cfg.rule r) (cfg.view e) (e.rules r), ∃ sync,
      Rule.booleanEvaluate (cfg.rule r) (cfg.view e) now p.2 p.1 { e.rules r with sync } =
        .ok true rl ∧
      ((∃ s, (cfg.rule r).alarmMsg.message (cfg.rule r) (cfg.view e) rl = .ok s) ↔
        Rule.Reports (cfg.rule r) (cfg.view e) (cfg.rule r).alarmMsg sync p) := by
  have hwf := h.wf
  have hen : (e.rules r).enabled = true := by
    by_contra hen
    rw [Bool.not_eq_true] at hen
    simp [Rule.evaluate, bind_apply, hen] at hev
  rw [Rule.evaluate_eq _ _ now hen (hwf.rules r).noNull] at hev
  have hP : Pre fun s s' : Rule C => ∃ sync, s' = { s with sync } :=
    ⟨fun s => ⟨s.sync, rfl⟩, by
      rintro s _ _ ⟨sync, rfl⟩ ⟨sync', rfl⟩
      exact ⟨sync', rfl⟩⟩
  obtain ⟨p, hp, _, ⟨sync, rfl⟩, hb⟩ := anyM_ok_true_after hP
    (fun p _ _ _ => Rule.booleanEvaluate_sync (cfg.rule r) (cfg.view e)) hev
  exact ⟨p, hp, sync, hb,
    Rule.message_reports_iff _ _ hwf.conds (hwf.rules r) hp hb⟩

end Engine

/-! ## An alarm without a message -/

/-- The conditions `a` and `b` and two rules `b || count(a) >= 1`: the message of the first names
the source of `a`, that of the second the source of `b`. -/
def namingConfig : Config Bool Bool where
  lex := ⟨fun _ => none, fun _ => none⟩
  cmap := [false, true]
  rmap := [false, true]
  cond
    | false => { name := "a", severity := .debug, anySrc := true, e := Regex.literal "a" }
    | true => { name := "b", severity := .debug, anySrc := true, e := Regex.literal "b" }
  rule
    | false => .naming "r" [[.cond true], [.func false (.count .none) (.double .ge 1)]]
      ⟨"from ", [(5, false, .source)]⟩ (Eq.refl true)
    | true => .naming "s" [[.cond true], [.func false (.count .none) (.double .ge 1)]]
      ⟨"from ", [(5, true, .source)]⟩ (Eq.refl true)
  mem_cmap := mem_bools
  cmap_nodup := bools_nodup
  mem_rmap := mem_bools
  rmap_nodup := bools_nodup
  condName_inj := by decide
  ruleName_inj := by decide

/-- The source `x` has reported `b`. -/
def namingState : Engine Bool Bool :=
  final (Engine.matchConds namingConfig (lossyMsg "x" "b") [false, true] {}) namingConfig.init

theorem namingState_passed : Passed namingConfig namingState :=
  Engine.matchConds_steps namingConfig Engine.anyReset _ _ _ _

/-- The rule raises an alarm, as `b` is on, and its message asks for the source of `a`, which is not
evaluated. -/
theorem alarm_not_reported : Passed namingConfig namingState ∧
    ∃ rl, Rule.evaluate (namingConfig.rule false) (namingConfig.view namingState) 0
        (namingState.rules false) = .ok true rl ∧
      ¬∃ s, (namingConfig.rule false).alarmMsg.message (namingConfig.rule false)
        (namingConfig.view namingState) rl = .ok s := by
  refine ⟨namingState_passed, _, ok_of_value? (by decide +kernel), fun ⟨s, hs⟩ => ?_⟩
  have hfails : ((namingConfig.rule false).alarmMsg.message (namingConfig.rule false)
      (namingConfig.view namingState) (final (Rule.evaluate (namingConfig.rule false)
        (namingConfig.view namingState) 0) (namingState.rules false))).isOk = false := by
    decide +kernel
  rw [hs] at hfails
  simp [Except.isOk, Except.toBool] at hfails

/-- The second rule tells the source of `b`. -/
theorem alarm_reported_second : ∃ rl,
    Rule.evaluate (namingConfig.rule true) (namingConfig.view namingState) 0
      (namingState.rules true) = .ok true rl ∧
    ∃ p ∈ Rule.tries (namingConfig.rule true) (namingConfig.view namingState)
        (namingState.rules true), ∃ sync,
      Rule.booleanEvaluate (namingConfig.rule true) (namingConfig.view namingState) 0 p.2 p.1
        { namingState.rules true with sync } = .ok true rl ∧
      ((∃ s, (namingConfig.rule true).alarmMsg.message (namingConfig.rule true)
          (namingConfig.view namingState) rl = .ok s) ↔
        Rule.Reports (namingConfig.rule true) (namingConfig.view namingState)
          (namingConfig.rule true).alarmMsg sync p) := by
  have hev : value? (Rule.evaluate (namingConfig.rule true) (namingConfig.view namingState) 0)
      (namingState.rules true) = some true := by decide +kernel
  exact ⟨_, ok_of_value? hev,
    Engine.alarm_reported_iff namingState_passed true (ok_of_value? hev)⟩

end MfExtensions
