import MfExtensions.Boolean

/-!
# The reading of an expression

An expression of primitive conditions is read with a truth value for each of them. Reading it
visits conditions until the value is known; of a true expression all of those visited are true if
and only if the first alternative of every disjunction is (`visitedOr_on_iff`).
-/

namespace MfExtensions

namespace BooleanCond

variable {C : Type} (on : C → Bool)

mutual

/-- The value of an expression of primitive conditions. -/
def reading : BooleanCond C → Bool
  | .expr e => readingOr e
  | .cond c => on c
  | .func _ _ _ => false

def readingAnd : List (BooleanCond C) → Bool
  | [] => true
  | b :: bs => b.reading && readingAnd bs

def readingOr : List (List (BooleanCond C)) → Bool
  | [] => false
  | a :: as => readingAnd a || readingOr as

end

mutual

/-- The conditions visited until the value is known. -/
def visited : BooleanCond C → List C
  | .expr e => visitedOr e
  | .cond c => [c]
  | .func _ _ _ => []

def visitedAnd : List (BooleanCond C) → List C
  | [] => []
  | b :: bs => b.visited ++ if b.reading on then visitedAnd bs else []

def visitedOr : List (List (BooleanCond C)) → List C
  | [] => []
  | a :: as => visitedAnd a ++ if readingAnd on a then [] else visitedOr as

end

omit on in
mutual

/-- The conditions of the first alternative of each disjunction. -/
def leftmost : BooleanCond C → List C
  | .expr e => leftmostOr e
  | .cond c => [c]
  | .func _ _ _ => []

def leftmostAnd : List (BooleanCond C) → List C
  | [] => []
  | b :: bs => b.leftmost ++ leftmostAnd bs

def leftmostOr : List (List (BooleanCond C)) → List C
  | [] => []
  | a :: _ => leftmostAnd a

end

variable {on}

mutual

theorem reading_mono {on' : C → Bool} : ∀ b : BooleanCond C,
    (∀ p ∈ b.leaves, on p.1 = true → on' p.1 = true) →
      b.reading on = true → b.reading on' = true
  | .expr e, h, hr => readingOr_mono e h hr
  | .cond c, h, hr => h (c, none) (by simp [leaves]) hr
  | .func _ _ _, _, hr => hr

theorem readingAnd_mono {on' : C → Bool} : ∀ bs : List (BooleanCond C),
    (∀ p ∈ leavesAnd bs, on p.1 = true → on' p.1 = true) →
      readingAnd on bs = true → readingAnd on' bs = true
  | [], _, _ => rfl
  | b :: bs, h, hr => by
    simp only [leavesAnd, List.mem_append] at h
    simp only [readingAnd, Bool.and_eq_true] at hr ⊢
    exact ⟨reading_mono b (fun p hp => h p (.inl hp)) hr.1,
      readingAnd_mono bs (fun p hp => h p (.inr hp)) hr.2⟩

theorem readingOr_mono {on' : C → Bool} : ∀ e : List (List (BooleanCond C)),
    (∀ p ∈ leavesOr e, on p.1 = true → on' p.1 = true) →
      readingOr on e = true → readingOr on' e = true
  | [], _, hr => hr
  | a :: as, h, hr => by
    simp only [leavesOr, List.mem_append] at h
    simp only [readingOr, Bool.or_eq_true] at hr ⊢
    exact hr.imp (readingAnd_mono a fun p hp => h p (.inl hp))
      (readingOr_mono as fun p hp => h p (.inr hp))

end

mutual

theorem reading_of_leftmost : ∀ b : BooleanCond C, b.grammatical = true →
    (∀ p ∈ b.leaves, p.2 = none) → (∀ c ∈ b.leftmost, on c = true) → b.reading on = true
  | .expr e, hg, hp, h => by
    simp only [grammatical, Bool.and_eq_true, Bool.not_eq_true', List.isEmpty_eq_false_iff] at hg
    exact readingOr_of_leftmost e hg.1 hg.2 hp h
  | .cond c, _, _, h => h c (List.mem_singleton_self c)
  | .func c f rhv, _, hp, _ => by simp [leaves] at hp

theorem readingAnd_of_leftmost : ∀ bs : List (BooleanCond C), grammaticalAnd bs = true →
    (∀ p ∈ leavesAnd bs, p.2 = none) → (∀ c ∈ leftmostAnd bs, on c = true) →
    readingAnd on bs = true
  | [], _, _, _ => rfl
  | b :: bs, hg, hp, h => by
    simp only [grammaticalAnd, Bool.and_eq_true] at hg
    simp only [leavesAnd, List.mem_append] at hp
    simp only [leftmostAnd, List.mem_append] at h
    rw [readingAnd, reading_of_leftmost b hg.1 (fun p h => hp p (.inl h)) fun c hc => h c (.inl hc),
      readingAnd_of_leftmost bs hg.2 (fun p h => hp p (.inr h)) fun c hc => h c (.inr hc)]
    rfl

theorem readingOr_of_leftmost : ∀ e : List (List (BooleanCond C)), e ≠ [] →
    grammaticalOr e = true → (∀ p ∈ leavesOr e, p.2 = none) →
    (∀ c ∈ leftmostOr e, on c = true) → readingOr on e = true
  | a :: as, _, hg, hp, h => by
    simp only [grammaticalOr, Bool.and_eq_true] at hg
    simp only [leavesOr, List.mem_append] at hp
    rw [readingOr, readingAnd_of_leftmost a hg.1.2 (fun p h => hp p (.inl h)) h, Bool.true_or]

end

mutual

/-- Where the first alternatives are true, nothing else is visited. -/
theorem visited_eq_leftmost : ∀ b : BooleanCond C, b.grammatical = true →
    (∀ p ∈ b.leaves, p.2 = none) → (∀ c ∈ b.leftmost, on c = true) →
    b.visited on = b.leftmost
  | .expr e, hg, hp, h => by
    simp only [grammatical, Bool.and_eq_true] at hg
    exact visitedOr_eq_leftmost e hg.2 hp h
  | .cond _, _, _, _ => rfl
  | .func _ _ _, _, _, _ => rfl

theorem visitedAnd_eq_leftmost : ∀ bs : List (BooleanCond C), grammaticalAnd bs = true →
    (∀ p ∈ leavesAnd bs, p.2 = none) → (∀ c ∈ leftmostAnd bs, on c = true) →
    visitedAnd on bs = leftmostAnd bs
  | [], _, _, _ => rfl
  | b :: bs, hg, hp, h => by
    simp only [grammaticalAnd, Bool.and_eq_true] at hg
    simp only [leavesAnd, List.mem_append] at hp
    simp only [leftmostAnd, List.mem_append] at h
    have hpb : ∀ p ∈ b.leaves, p.2 = none := fun p h => hp p (.inl h)
    have hb : ∀ c ∈ b.leftmost, on c = true := fun c hc => h c (.inl hc)
    rw [visitedAnd, leftmostAnd, reading_of_leftmost b hg.1 hpb hb, if_pos rfl,
      visited_eq_leftmost b hg.1 hpb hb,
      visitedAnd_eq_leftmost bs hg.2 (fun p h => hp p (.inr h)) fun c hc => h c (.inr hc)]

theorem visitedOr_eq_leftmost : ∀ e : List (List (BooleanCond C)), grammaticalOr e = true →
    (∀ p ∈ leavesOr e, p.2 = none) → (∀ c ∈ leftmostOr e, on c = true) →
    visitedOr on e = leftmostOr e
  | [], _, _, _ => rfl
  | a :: as, hg, hp, h => by
    simp only [grammaticalOr, Bool.and_eq_true] at hg
    simp only [leavesOr, List.mem_append] at hp
    have hpa : ∀ p ∈ leavesAnd a, p.2 = none := fun p h => hp p (.inl h)
    rw [visitedOr, leftmostOr, readingAnd_of_leftmost a hg.1.2 hpa h, if_pos rfl, List.append_nil,
      visitedAnd_eq_leftmost a hg.1.2 hpa h]

end

mutual

theorem mem_leaves_of_visited {c : C} : ∀ b : BooleanCond C, c ∈ b.visited on →
    c ∈ b.leaves.map Prod.fst
  | .expr e, h => mem_leaves_of_visitedOr e h
  | .cond d, h => by simpa [visited, leaves] using h
  | .func _ _ _, h => by simp [visited] at h

theorem mem_leaves_of_visitedAnd {c : C} : ∀ bs : List (BooleanCond C), c ∈ visitedAnd on bs →
    c ∈ (leavesAnd bs).map Prod.fst
  | [], h => by simp [visitedAnd] at h
  | b :: bs, h => by
    simp only [visitedAnd, List.mem_append] at h
    rw [leavesAnd, List.map_append, List.mem_append]
    refine h.imp (mem_leaves_of_visited b) fun h => ?_
    split_ifs at h
    · exact mem_leaves_of_visitedAnd bs h
    · simp at h

theorem mem_leaves_of_visitedOr {c : C} : ∀ e : List (List (BooleanCond C)),
    c ∈ visitedOr on e → c ∈ (leavesOr e).map Prod.fst
  | [], h => by simp [visitedOr] at h
  | a :: as, h => by
    simp only [visitedOr, List.mem_append] at h
    rw [leavesOr, List.map_append, List.mem_append]
    refine h.imp (mem_leaves_of_visitedAnd a) fun h => ?_
    split_ifs at h
    · simp at h
    · exact mem_leaves_of_visitedOr as h

end

mutual

/-- A false expression has visited a condition that is off. -/
theorem exists_visited_off : ∀ b : BooleanCond C, b.grammatical = true →
    (∀ p ∈ b.leaves, p.2 = none) → b.reading on = false → ∃ c ∈ b.visited on, on c = false
  | .expr e, hg, hp, h => by
    simp only [grammatical, Bool.and_eq_true, Bool.not_eq_true', List.isEmpty_eq_false_iff] at hg
    exact exists_visitedOr_off e hg.1 hg.2 hp h
  | .cond c, _, _, h => ⟨c, List.mem_singleton_self c, h⟩
  | .func c f rhv, _, hp, _ => by simp [leaves] at hp

theorem exists_visitedAnd_off : ∀ bs : List (BooleanCond C), grammaticalAnd bs = true →
    (∀ p ∈ leavesAnd bs, p.2 = none) → readingAnd on bs = false →
    ∃ c ∈ visitedAnd on bs, on c = false
  | [], _, _, h => by simp [readingAnd] at h
  | b :: bs, hg, hp, h => by
    simp only [grammaticalAnd, Bool.and_eq_true] at hg
    simp only [leavesAnd, List.mem_append] at hp
    simp only [visitedAnd, List.mem_append]
    cases hb : b.reading on with
    | false =>
      obtain ⟨c, hc, hoff⟩ := exists_visited_off b hg.1 (fun p h => hp p (.inl h)) hb
      exact ⟨c, .inl hc, hoff⟩
    | true =>
      rw [readingAnd, hb, Bool.true_and] at h
      obtain ⟨c, hc, hoff⟩ := exists_visitedAnd_off bs hg.2 (fun p h => hp p (.inr h)) h
      exact ⟨c, .inr (by simpa using hc), hoff⟩

theorem exists_visitedOr_off : ∀ e : List (List (BooleanCond C)), e ≠ [] →
    grammaticalOr e = true → (∀ p ∈ leavesOr e, p.2 = none) → readingOr on e = false →
    ∃ c ∈ visitedOr on e, on c = false
  | a :: as, _, hg, hp, h => by
    simp only [grammaticalOr, Bool.and_eq_true] at hg
    simp only [leavesOr, List.mem_append] at hp
    rw [readingOr, Bool.or_eq_false_iff] at h
    obtain ⟨c, hc, hoff⟩ := exists_visitedAnd_off a hg.1.2 (fun p h => hp p (.inl h)) h.1
    exact ⟨c, by simp [visitedOr, hc], hoff⟩

end

mutual

/-- Of a true expression only conditions that are on have been visited if and only if those of the
first alternatives are on. -/
theorem visited_on_iff : ∀ b : BooleanCond C, b.grammatical = true →
    (∀ p ∈ b.leaves, p.2 = none) → b.reading on = true →
    ((∀ c ∈ b.visited on, on c = true) ↔ ∀ c ∈ b.leftmost, on c = true)
  | .expr e, hg, hp, h => by
    simp only [grammatical, Bool.and_eq_true] at hg
    exact visitedOr_on_iff e hg.2 hp h
  | .cond c, _, _, _ => Iff.rfl
  | .func c f rhv, _, hp, _ => by simp [leaves] at hp

theorem visitedAnd_on_iff : ∀ bs : List (BooleanCond C), grammaticalAnd bs = true →
    (∀ p ∈ leavesAnd bs, p.2 = none) → readingAnd on bs = true →
    ((∀ c ∈ visitedAnd on bs, on c = true) ↔ ∀ c ∈ leftmostAnd bs, on c = true)
  | [], _, _, _ => Iff.rfl
  | b :: bs, hg, hp, h => by
    simp only [grammaticalAnd, Bool.and_eq_true] at hg
    simp only [leavesAnd, List.mem_append] at hp
    simp only [readingAnd, Bool.and_eq_true] at h
    simp only [visitedAnd, leftmostAnd, h.1, if_true, List.forall_mem_append,
      visited_on_iff b hg.1 (fun p h => hp p (.inl h)) h.1,
      visitedAnd_on_iff bs hg.2 (fun p h => hp p (.inr h)) h.2]

theorem visitedOr_on_iff : ∀ e : List (List (BooleanCond C)), grammaticalOr e = true →
    (∀ p ∈ leavesOr e, p.2 = none) → readingOr on e = true →
    ((∀ c ∈ visitedOr on e, on c = true) ↔ ∀ c ∈ leftmostOr e, on c = true)
  | [], _, _, h => by simp [readingOr] at h
  | a :: as, hg, hp, _ => by
    simp only [grammaticalOr, Bool.and_eq_true] at hg
    simp only [leavesOr, List.mem_append] at hp
    have hpa : ∀ p ∈ leavesAnd a, p.2 = none := fun p h => hp p (.inl h)
    cases ha : readingAnd on a with
    | true =>
      simp only [visitedOr, leftmostOr, ha, if_true, List.append_nil]
      exact visitedAnd_on_iff a hg.1.2 hpa ha
    | false =>
      -- the first alternative is given up, so a condition of it that is off was visited
      obtain ⟨c, hc, hoff⟩ := exists_visitedAnd_off a hg.1.2 hpa ha
      refine iff_of_false (fun h => ?_) fun h => ?_
      · have := h c (by simp [visitedOr, hc])
        simp [hoff] at this
      · simp [readingAnd_of_leftmost a hg.1.2 hpa h] at ha

end

end BooleanCond

end MfExtensions
