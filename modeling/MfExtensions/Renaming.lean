import MfExtensions.Rule

/-!
# Renaming conditions

A rule names its conditions, or points to them. `map` makes of a rule over the ones a rule over the
others: its expressions stay of the grammar, with the same functions of the conditions renamed, and
renaming a condition to itself changes nothing (`RuleConfig.map_map_eq`).
-/

namespace MfExtensions

/-! ## Boolean expressions -/

section Map

variable {A B : Type} (f : A → B)

mutual

def BooleanCond.map : BooleanCond A → BooleanCond B
  | .expr e => .expr (BooleanCond.mapOr e)
  | .cond c => .cond (f c)
  | .func c g rhv => .func (f c) g rhv

def BooleanCond.mapAnd : List (BooleanCond A) → List (BooleanCond B)
  | [] => []
  | b :: bs => b.map :: BooleanCond.mapAnd bs

def BooleanCond.mapOr : List (List (BooleanCond A)) → List (List (BooleanCond B))
  | [] => []
  | a :: as => BooleanCond.mapAnd a :: BooleanCond.mapOr as

end

mutual

theorem BooleanCond.leaves_map : ∀ b : BooleanCond A,
    (b.map f).leaves = b.leaves.map (Prod.map f id)
  | .expr e => by
    rw [BooleanCond.map, BooleanCond.leaves, BooleanCond.leaves, BooleanCond.leavesOr_map e]
  | .cond c => rfl
  | .func c g rhv => rfl

theorem BooleanCond.leavesAnd_map : ∀ bs : List (BooleanCond A),
    BooleanCond.leavesAnd (BooleanCond.mapAnd f bs) =
      (BooleanCond.leavesAnd bs).map (Prod.map f id)
  | [] => rfl
  | b :: bs => by
    rw [BooleanCond.mapAnd, BooleanCond.leavesAnd, BooleanCond.leavesAnd, List.map_append,
      BooleanCond.leaves_map b, BooleanCond.leavesAnd_map bs]

theorem BooleanCond.leavesOr_map : ∀ e : List (List (BooleanCond A)),
    BooleanCond.leavesOr (BooleanCond.mapOr f e) = (BooleanCond.leavesOr e).map (Prod.map f id)
  | [] => rfl
  | a :: as => by
    rw [BooleanCond.mapOr, BooleanCond.leavesOr, BooleanCond.leavesOr, List.map_append,
      BooleanCond.leavesAnd_map a, BooleanCond.leavesOr_map as]

end

theorem BooleanCond.isEmpty_mapAnd (bs : List (BooleanCond A)) :
    (BooleanCond.mapAnd f bs).isEmpty = bs.isEmpty := by
  cases bs <;> rfl

theorem BooleanCond.isEmpty_mapOr (e : List (List (BooleanCond A))) :
    (BooleanCond.mapOr f e).isEmpty = e.isEmpty := by
  cases e <;> rfl

mutual

theorem BooleanCond.grammatical_map : ∀ b : BooleanCond A, (b.map f).grammatical = b.grammatical
  | .expr e => by
    rw [BooleanCond.map, BooleanCond.grammatical, BooleanCond.grammatical,
      BooleanCond.isEmpty_mapOr, BooleanCond.grammaticalOr_map e]
  | .cond c => rfl
  | .func c g rhv => rfl

theorem BooleanCond.grammaticalAnd_map : ∀ bs : List (BooleanCond A),
    BooleanCond.grammaticalAnd (BooleanCond.mapAnd f bs) = BooleanCond.grammaticalAnd bs
  | [] => rfl
  | b :: bs => by
    rw [BooleanCond.mapAnd, BooleanCond.grammaticalAnd, BooleanCond.grammaticalAnd,
      BooleanCond.grammatical_map b, BooleanCond.grammaticalAnd_map bs]

theorem BooleanCond.grammaticalOr_map : ∀ e : List (List (BooleanCond A)),
    BooleanCond.grammaticalOr (BooleanCond.mapOr f e) = BooleanCond.grammaticalOr e
  | [] => rfl
  | a :: as => by
    rw [BooleanCond.mapOr, BooleanCond.grammaticalOr, BooleanCond.grammaticalOr,
      BooleanCond.isEmpty_mapAnd, BooleanCond.grammaticalAnd_map a,
      BooleanCond.grammaticalOr_map as]

end

/-! ## Domain expressions -/

mutual

def DomainCond.map : DomainCond A → DomainCond B
  | .expr e => .expr (DomainCond.mapOr e)
  | .chain as str => .chain (as.map (Prod.map f id)) str

def DomainCond.mapAnd : List (DomainCond A) → List (DomainCond B)
  | [] => []
  | b :: bs => b.map :: DomainCond.mapAnd bs

def DomainCond.mapOr : List (List (DomainCond A)) → List (List (DomainCond B))
  | [] => []
  | a :: as => DomainCond.mapAnd a :: DomainCond.mapOr as

end

mutual

theorem DomainCond.args_map : ∀ b : DomainCond A, (b.map f).args = b.args.map (Prod.map f id)
  | .expr e => by
    rw [DomainCond.map, DomainCond.args, DomainCond.args, DomainCond.argsOr_map e]
  | .chain as str => rfl

theorem DomainCond.argsAnd_map : ∀ bs : List (DomainCond A),
    DomainCond.argsAnd (DomainCond.mapAnd f bs) = (DomainCond.argsAnd bs).map (Prod.map f id)
  | [] => rfl
  | b :: bs => by
    rw [DomainCond.mapAnd, DomainCond.argsAnd, DomainCond.argsAnd, List.map_append,
      DomainCond.args_map b, DomainCond.argsAnd_map bs]

theorem DomainCond.argsOr_map : ∀ e : List (List (DomainCond A)),
    DomainCond.argsOr (DomainCond.mapOr f e) = (DomainCond.argsOr e).map (Prod.map f id)
  | [] => rfl
  | a :: as => by
    rw [DomainCond.mapOr, DomainCond.argsOr, DomainCond.argsOr, List.map_append,
      DomainCond.argsAnd_map a, DomainCond.argsOr_map as]

end

theorem DomainCond.isEmpty_mapAnd (bs : List (DomainCond A)) :
    (DomainCond.mapAnd f bs).isEmpty = bs.isEmpty := by
  cases bs <;> rfl

mutual

theorem DomainCond.grammatical_map : ∀ b : DomainCond A, (b.map f).grammatical = b.grammatical
  | .expr e => by
    rw [DomainCond.map, DomainCond.grammatical, DomainCond.grammatical,
      DomainCond.grammaticalOr_map e]
  | .chain as str => by
    rw [DomainCond.map, DomainCond.grammatical, DomainCond.grammatical, List.all_map,
      List.isEmpty_map]
    rfl

theorem DomainCond.grammaticalAnd_map : ∀ bs : List (DomainCond A),
    DomainCond.grammaticalAnd (DomainCond.mapAnd f bs) = DomainCond.grammaticalAnd bs
  | [] => rfl
  | b :: bs => by
    rw [DomainCond.mapAnd, DomainCond.grammaticalAnd, DomainCond.grammaticalAnd,
      DomainCond.grammatical_map b, DomainCond.grammaticalAnd_map bs]

theorem DomainCond.grammaticalOr_map : ∀ e : List (List (DomainCond A)),
    DomainCond.grammaticalOr (DomainCond.mapOr f e) = DomainCond.grammaticalOr e
  | [] => rfl
  | a :: as => by
    rw [DomainCond.mapOr, DomainCond.grammaticalOr, DomainCond.grammaticalOr,
      DomainCond.isEmpty_mapAnd, DomainCond.grammaticalAnd_map a, DomainCond.grammaticalOr_map as]

end

/-! ## Renaming back -/

variable {f} {g : B → A}

mutual

theorem BooleanCond.map_map_eq : ∀ {b : BooleanCond A}, (∀ x ∈ b.leaves, g (f x.1) = x.1) →
    (b.map f).map g = b
  | .expr e, h => by
    rw [BooleanCond.map, BooleanCond.map, BooleanCond.mapOr_mapOr_eq h]
  | .cond c, h => congrArg BooleanCond.cond (h (c, none) (List.mem_singleton_self _))
  | .func c F rhv, h =>
    congrArg (BooleanCond.func · F rhv) (h (c, some F) (List.mem_singleton_self _))

theorem BooleanCond.mapAnd_mapAnd_eq : ∀ {bs : List (BooleanCond A)},
    (∀ x ∈ BooleanCond.leavesAnd bs, g (f x.1) = x.1) →
    BooleanCond.mapAnd g (BooleanCond.mapAnd f bs) = bs
  | [], _ => rfl
  | b :: bs, h => by
    obtain ⟨hb, hbs⟩ := List.forall_mem_append.1 h
    rw [BooleanCond.mapAnd, BooleanCond.mapAnd, BooleanCond.map_map_eq hb,
      BooleanCond.mapAnd_mapAnd_eq hbs]

theorem BooleanCond.mapOr_mapOr_eq : ∀ {e : List (List (BooleanCond A))},
    (∀ x ∈ BooleanCond.leavesOr e, g (f x.1) = x.1) →
    BooleanCond.mapOr g (BooleanCond.mapOr f e) = e
  | [], _ => rfl
  | a :: as, h => by
    obtain ⟨ha, has⟩ := List.forall_mem_append.1 h
    rw [BooleanCond.mapOr, BooleanCond.mapOr, BooleanCond.mapAnd_mapAnd_eq ha,
      BooleanCond.mapOr_mapOr_eq has]

end

theorem map_pairs_eq {α : Type} (as : List (A × α)) (h : ∀ p ∈ as, g (f p.1) = p.1) :
    (as.map (Prod.map f id)).map (Prod.map g id) = as := by
  have hid : as.map (Prod.map g id ∘ Prod.map f id) = as.map id :=
    List.map_congr_left fun p hp => Prod.ext (h p hp) rfl
  rw [List.map_map, hid, List.map_id]

mutual

theorem DomainCond.map_map_eq : ∀ {b : DomainCond A}, (∀ p ∈ b.args, g (f p.1) = p.1) →
    (b.map f).map g = b
  | .expr e, h => by
    rw [DomainCond.map, DomainCond.map, DomainCond.mapOr_mapOr_eq h]
  | .chain as str, h => by
    rw [DomainCond.map, DomainCond.map, map_pairs_eq as h]

theorem DomainCond.mapAnd_mapAnd_eq : ∀ {bs : List (DomainCond A)},
    (∀ p ∈ DomainCond.argsAnd bs, g (f p.1) = p.1) →
    DomainCond.mapAnd g (DomainCond.mapAnd f bs) = bs
  | [], _ => rfl
  | b :: bs, h => by
    obtain ⟨hb, hbs⟩ := List.forall_mem_append.1 h
    rw [DomainCond.mapAnd, DomainCond.mapAnd, DomainCond.map_map_eq hb,
      DomainCond.mapAnd_mapAnd_eq hbs]

theorem DomainCond.mapOr_mapOr_eq : ∀ {e : List (List (DomainCond A))},
    (∀ p ∈ DomainCond.argsOr e, g (f p.1) = p.1) →
    DomainCond.mapOr g (DomainCond.mapOr f e) = e
  | [], _ => rfl
  | a :: as, h => by
    obtain ⟨ha, has⟩ := List.forall_mem_append.1 h
    rw [DomainCond.mapOr, DomainCond.mapOr, DomainCond.mapAnd_mapAnd_eq ha,
      DomainCond.mapOr_mapOr_eq has]

end

end Map

/-! ## Rules -/

section Rules

variable {A B : Type}

def RichMsg.map (f : A → B) (m : RichMsg A) : RichMsg B :=
  ⟨m.strippedMsg, m.symbols.map fun s => (s.1, f s.2.1, s.2.2)⟩

theorem RichMsg.map_map_eq {f : A → B} {g : B → A} {m : RichMsg A}
    (h : ∀ s ∈ m.symbols, g (f s.2.1) = s.2.1) : (m.map f).map g = m := by
  obtain ⟨strippedMsg, symbols⟩ := m
  have hid : (symbols.map fun s => (s.1, f s.2.1, s.2.2)).map (fun s => (s.1, g s.2.1, s.2.2)) =
      symbols.map id := by
    rw [List.map_map]
    exact List.map_congr_left fun s hs => Prod.ext rfl (Prod.ext (h s hs) rfl)
  rw [RichMsg.map, RichMsg.map, hid, List.map_id]

variable [DecidableEq A] [DecidableEq B]

def RuleConfig.map (f : A → B) (k : RuleConfig A) : RuleConfig B where
  name := k.name
  booleanExpr := BooleanCond.mapOr f k.booleanExpr
  domainExpr := DomainCond.mapOr f k.domainExpr
  alarmMsg := k.alarmMsg.map f
  repeatAlarm := k.repeatAlarm
  holdoff := k.holdoff
  actions := k.actions.map (RichMsg.map f)
  grammatical := by
    rw [BooleanExpr.grammatical, BooleanCond.isEmpty_mapOr, BooleanCond.grammaticalOr_map]
    exact k.grammatical
  domainGrammatical := (DomainCond.grammaticalOr_map f _).trans k.domainGrammatical
  args_mem p hp := by
    rw [DomainExpr.args, DomainCond.argsOr_map] at hp
    obtain ⟨q, hq, rfl⟩ := List.mem_map.1 hp
    obtain ⟨x, hx, hxq⟩ := List.mem_map.1 (k.args_mem q hq)
    rw [BooleanExpr.leaves, BooleanCond.leavesOr_map, List.map_map]
    exact List.mem_map.2 ⟨x, hx, congrArg f hxq⟩
  symbols_mem m hm s hs := by
    have hmem : ∃ m₀ ∈ k.alarmMsg :: k.actions, m = m₀.map f := by
      rcases List.mem_cons.1 hm with rfl | hm
      · exact ⟨_, List.mem_cons_self, rfl⟩
      · obtain ⟨m₀, hm₀, rfl⟩ := List.mem_map.1 hm
        exact ⟨m₀, List.mem_cons_of_mem _ hm₀, rfl⟩
    obtain ⟨m₀, hm₀, rfl⟩ := hmem
    obtain ⟨t, ht, rfl⟩ := List.mem_map.1 hs
    obtain ⟨x, hx, hxt⟩ := List.mem_map.1 (k.symbols_mem m₀ hm₀ t ht)
    rw [BooleanExpr.leaves, BooleanCond.leavesOr_map, List.map_map]
    exact List.mem_map.2 ⟨x, hx, congrArg f hxt⟩

/-- A rule whose conditions are all renamed back. -/
theorem RuleConfig.map_map_eq {f : A → B} {g : B → A} {k : RuleConfig A}
    (h : ∀ c ∈ k.booleanExpr.leaves.map Prod.fst, g (f c) = c) : (k.map f).map g = k := by
  have hbool := BooleanCond.mapOr_mapOr_eq (f := f) (g := g) (e := k.booleanExpr)
    fun x hx => h x.1 (List.mem_map_of_mem hx)
  have hdomain := DomainCond.mapOr_mapOr_eq (f := f) (g := g) (e := k.domainExpr)
    fun p hp => h p.1 (k.args_mem p hp)
  have hmsg : ∀ m ∈ k.alarmMsg :: k.actions, (m.map f).map g = m := fun m hm =>
    RichMsg.map_map_eq fun s hs => h s.2.1 (k.symbols_mem m hm s hs)
  have halarm := hmsg k.alarmMsg List.mem_cons_self
  have hactions : (k.actions.map (RichMsg.map f)).map (RichMsg.map g) = k.actions := by
    rw [List.map_map]
    exact (List.map_congr_left fun m hm => hmsg m (List.mem_cons_of_mem _ hm)).trans
      (List.map_id _)
  obtain ⟨name, booleanExpr, domainExpr, alarmMsg, repeatAlarm, holdoff, actions⟩ := k
  simp only [RuleConfig.map, RuleConfig.mk.injEq, true_and] at *
  exact ⟨hbool, hdomain, halarm, hactions⟩

end Rules

end MfExtensions
