import Mathlib.Data.List.Forall2
import Mathlib.Logic.Function.Basic
import Mathlib.Tactic.TypeStar

/-!
# Computations that change a state and may throw

`EStateM ε σ α` keeps the state it had reached when it throws. `Moves P x` says that every run
of `x`, returning or throwing, goes from a state to one that `P` relates it to: with `P` a
preorder it composes, and a fixed component (`Pre.frame`) and an invariant (`Pre.keeps`) are the
two preorders most used. `Throws P x` says that whatever a run of `x` throws satisfies `P`.
`Sim P Q E x y` says that two computations started in states that `P` relates return or throw
alike, and leave states that `Q` or `E` relates.
-/

namespace Exec

variable {ε σ τ α β ι : Type}

/-- The state a run leaves behind, whether it returns or throws. -/
def final (x : EStateM ε σ α) (s : σ) : σ :=
  match x s with
  | .ok _ s' => s'
  | .error _ s' => s'

/-- The value a run returns, if it does. -/
def value? (x : EStateM ε σ α) (s : σ) : Option α :=
  match x s with
  | .ok a _ => some a
  | .error _ _ => none

/-- Run a computation on a part of the state. -/
def zoom (get : σ → τ) (set : σ → τ → σ) (x : EStateM ε τ α) : EStateM ε σ α := fun s =>
  match x (get s) with
  | .ok a t => .ok a (set s t)
  | .error e t => .error e (set s t)

/-- Throw what an `Except` throws. -/
def orThrow : Except ε α → EStateM ε σ α
  | .ok a => pure a
  | .error e => throw e

/-- The values of a list of computations, or what the first that throws does. -/
def each (f : α → Except ε β) : List α → Except ε (List β)
  | [] => .ok []
  | a :: as => do return (← f a) :: (← each f as)

theorem each_eq_ok {f : α → Except ε β} : ∀ {as : List α} {bs : List β},
    each f as = .ok bs ↔ List.Forall₂ (fun a b => f a = .ok b) as bs
  | [], [] => ⟨fun _ => .nil, fun _ => rfl⟩
  | [], b :: bs => ⟨fun h => (nomatch h), fun h => nomatch h⟩
  | a :: as, bs => by
    constructor
    · intro h
      cases ha : f a with
      | error e =>
        rw [each, ha] at h
        cases h
      | ok b =>
        cases has : each f as with
        | error e =>
          rw [each, ha, has] at h
          cases h
        | ok bs' =>
          rw [each, ha, has] at h
          cases h
          exact .cons ha (each_eq_ok.1 has)
    · intro h
      cases h with
      | cons ha htail =>
        rw [each, ha, each_eq_ok.2 htail]
        rfl

theorem exists_of_mem_each {f : α → Except ε β} {as : List α} {bs : List β}
    (h : each f as = .ok bs) {b : β} (hb : b ∈ bs) : ∃ a ∈ as, f a = .ok b := by
  induction each_eq_ok.1 h with
  | nil => cases hb
  | @cons a b' as bs hab htail ih =>
    rcases List.mem_cons.1 hb with rfl | hb
    · exact ⟨a, List.mem_cons_self, hab⟩
    · obtain ⟨a', ha', hb'⟩ := ih (each_eq_ok.2 htail) hb
      exact ⟨a', List.mem_cons_of_mem _ ha', hb'⟩

theorem map_eq_of_each {γ : Type} {f : α → Except ε β} {g : β → γ} {g' : α → γ} {as : List α}
    {bs : List β} (h : each f as = .ok bs) (hg : ∀ a b, f a = .ok b → g b = g' a) :
    bs.map g = as.map g' := by
  induction each_eq_ok.1 h with
  | nil => rfl
  | cons hab htail ih => rw [List.map_cons, List.map_cons, hg _ _ hab, ih (each_eq_ok.2 htail)]

theorem bind_apply (x : EStateM ε σ α) (f : α → EStateM ε σ β) (s : σ) :
    (x >>= f) s = match x s with
      | .ok a s' => f a s'
      | .error e s' => .error e s' := rfl

theorem bind_ok {x : EStateM ε σ α} {f : α → EStateM ε σ β} {s s' : σ} {b : β} :
    (x >>= f) s = .ok b s' ↔ ∃ a s₁, x s = .ok a s₁ ∧ f a s₁ = .ok b s' := by
  rw [bind_apply]
  cases x s with
  | ok a s₁ => simp [and_assoc]
  | error e s₁ => simp

theorem bind_error {x : EStateM ε σ α} {f : α → EStateM ε σ β} {s s' : σ} {e : ε} :
    (x >>= f) s = .error e s' ↔
      x s = .error e s' ∨ ∃ a s₁, x s = .ok a s₁ ∧ f a s₁ = .error e s' := by
  rw [bind_apply]
  cases x s with
  | ok a s₁ => simp [and_assoc]
  | error e₁ s₁ => simp

theorem except_bind_ok {x : Except ε α} {f : α → Except ε β} {b : β} :
    (x >>= f) = .ok b ↔ ∃ a, x = .ok a ∧ f a = .ok b := by
  cases x <;> simp [bind, Except.bind]

@[simp] theorem pure_apply (a : α) (s : σ) : (pure a : EStateM ε σ α) s = .ok a s := rfl

@[simp] theorem throw_apply (e : ε) (s : σ) : (throw e : EStateM ε σ α) s = .error e s := rfl

@[simp] theorem get_apply (s : σ) : (get : EStateM ε σ σ) s = .ok s s := rfl

@[simp] theorem modify_apply (f : σ → σ) (s : σ) :
    (modify f : EStateM ε σ PUnit) s = .ok ⟨⟩ (f s) := rfl

@[simp] theorem orThrow_ok (a : α) (s : σ) :
    (orThrow (.ok a) : EStateM ε σ α) s = .ok a s := rfl

@[simp] theorem orThrow_error (e : ε) (s : σ) :
    (orThrow (.error e) : EStateM ε σ α) s = .error e s := rfl

theorem final_ok {x : EStateM ε σ α} {s s' : σ} {a : α} (h : x s = .ok a s') :
    final x s = s' := by simp [final, h]

theorem final_error {x : EStateM ε σ α} {s s' : σ} {e : ε} (h : x s = .error e s') :
    final x s = s' := by simp [final, h]

theorem ok_of_value? {x : EStateM ε σ α} {s : σ} {a : α} (h : value? x s = some a) :
    x s = .ok a (final x s) := by
  unfold value? at h
  unfold final
  generalize x s = r at h ⊢
  cases r with
  | ok b s' => rw [Option.some_inj.1 h]
  | error e s' => simp at h

theorem value?_of_ok {x : EStateM ε σ α} {s s' : σ} {a : α} (h : x s = .ok a s') :
    value? x s = some a := by simp [value?, h]

theorem final_zoom (get : σ → τ) (set : σ → τ → σ) (x : EStateM ε τ α) (s : σ) :
    final (zoom get set x) s = set s (final x (get s)) := by
  unfold final zoom
  cases x (get s) <;> rfl

theorem final_bind_ok {x : EStateM ε σ α} {f : α → EStateM ε σ β} {s s' : σ} {a : α}
    (h : x s = .ok a s') : final (x >>= f) s = final (f a) s' := by
  simp only [final, bind_apply, h]

theorem final_bind_error {x : EStateM ε σ α} {f : α → EStateM ε σ β} {s s' : σ} {e : ε}
    (h : x s = .error e s') : final (x >>= f) s = s' := by
  simp only [final, bind_apply, h]

theorem value?_bind_ok {x : EStateM ε σ α} {f : α → EStateM ε σ β} {s s' : σ} {a : α}
    (h : x s = .ok a s') : value? (x >>= f) s = value? (f a) s' := by
  unfold value?
  rw [bind_apply, h]

theorem value?_of_error {x : EStateM ε σ α} {s s' : σ} {e : ε} (h : x s = .error e s') :
    value? x s = none := by simp [value?, h]

theorem value?_bind_error {x : EStateM ε σ α} {f : α → EStateM ε σ β} {s s' : σ} {e : ε}
    (h : x s = .error e s') : value? (x >>= f) s = none := by
  unfold value?
  rw [bind_apply, h]

/-! ## One run -/

/-- A relation between states that holds of no change and of one change after another. -/
structure Pre (P : σ → σ → Prop) : Prop where
  refl : ∀ s, P s s
  trans : ∀ {s t u}, P s t → P t u → P s u

/-- The component `f` is not changed. -/
theorem Pre.frame (f : σ → τ) : Pre fun s s' => f s' = f s :=
  ⟨fun _ => rfl, fun h h' => h'.trans h⟩

/-- A component of one of many states is not changed if it is the same in the new state. -/
theorem update_frame [DecidableEq ι] {f : τ → α} {g : ι → τ} {i : ι} {x : τ} (h : f x = f (g i))
    (j : ι) : f (Function.update g i x j) = f (g j) := by
  rcases eq_or_ne j i with rfl | hne
  · rw [Function.update_self, h]
  · rw [Function.update_of_ne hne]

/-- The invariant `I` is kept. -/
theorem Pre.keeps (I : σ → Prop) : Pre fun s s' => I s → I s' :=
  ⟨fun _ h => h, fun h h' hs => h' (h hs)⟩

theorem Pre.and {P Q : σ → σ → Prop} (hP : Pre P) (hQ : Pre Q) :
    Pre fun s s' => P s s' ∧ Q s s' :=
  ⟨fun s => ⟨hP.refl s, hQ.refl s⟩, fun h h' => ⟨hP.trans h.1 h'.1, hQ.trans h.2 h'.2⟩⟩

/-- Every run of `x` goes from a state to one `P` relates it to. -/
def Moves (P : σ → σ → Prop) (x : EStateM ε σ α) : Prop := ∀ s, P s (final x s)

section Moves

variable {P : σ → σ → Prop}

theorem Moves.mono {Q : σ → σ → Prop} {x : EStateM ε σ α} (h : Moves P x)
    (hPQ : ∀ s s', P s s' → Q s s') : Moves Q x := fun s => hPQ _ _ (h s)

theorem Moves.of_ok {x : EStateM ε σ α} (h : Moves P x) {s s' : σ} {a : α}
    (hx : x s = .ok a s') : P s s' := final_ok hx ▸ h s

theorem Moves.of_error {x : EStateM ε σ α} (h : Moves P x) {s s' : σ} {e : ε}
    (hx : x s = .error e s') : P s s' := final_error hx ▸ h s

theorem moves_pure (hP : Pre P) (a : α) : Moves P (pure a : EStateM ε σ α) := fun s => hP.refl s

theorem moves_throw (hP : Pre P) (e : ε) : Moves P (throw e : EStateM ε σ α) :=
  fun s => hP.refl s

theorem moves_orThrow (hP : Pre P) (x : Except ε α) : Moves P (orThrow x : EStateM ε σ α) := by
  cases x with
  | ok a => exact moves_pure hP a
  | error e => exact moves_throw hP e

theorem moves_modify {f : σ → σ} (h : ∀ s, P s (f s)) :
    Moves P (modify f : EStateM ε σ PUnit) := h

/-- What follows `x` moves on from where `x` ends. -/
theorem final_bind_of_moves (hP : Pre P) {x : EStateM ε σ α} {f : α → EStateM ε σ β}
    (hf : ∀ a, Moves P (f a)) (s : σ) : P (final x s) (final (x >>= f) s) := by
  rcases hx : x s with ⟨a, s₁⟩ | ⟨e, s₁⟩
  · rw [final_bind_ok hx, final_ok hx]
    exact hf a s₁
  · rw [final_bind_error hx, final_error hx]
    exact hP.refl s₁

theorem moves_bind (hP : Pre P) {x : EStateM ε σ α} {f : α → EStateM ε σ β}
    (hx : Moves P x) (hf : ∀ a, Moves P (f a)) : Moves P (x >>= f) :=
  fun s => hP.trans (hx s) (final_bind_of_moves hP hf s)

/-- `get` changes nothing, so what follows may use the state it reads. -/
theorem moves_get_bind {f : σ → EStateM ε σ β} (hf : ∀ s, P s (final (f s) s)) :
    Moves P (get >>= f) := hf

theorem moves_anyM (hP : Pre P) {p : ι → EStateM ε σ Bool} :
    ∀ {l : List ι}, (∀ a ∈ l, Moves P (p a)) → Moves P (l.anyM p)
  | [], _ => moves_pure hP false
  | a :: l, h => by
    refine moves_bind hP (h a List.mem_cons_self) fun b => ?_
    cases b with
    | true => exact moves_pure hP true
    | false => exact moves_anyM hP fun a ha => h a (List.mem_cons_of_mem _ ha)

theorem moves_zoom {Q : τ → τ → Prop} {get : σ → τ} {set : σ → τ → σ} {x : EStateM ε τ α}
    (hx : Moves Q x) (hPQ : ∀ s t, Q (get s) t → P s (set s t)) : Moves P (zoom get set x) := by
  intro s
  have h := hx (get s)
  unfold final at h ⊢
  unfold zoom
  generalize x (get s) = r at h ⊢
  cases r <;> exact hPQ s _ h

end Moves

/-! ## What is thrown -/

/-- Whatever a run of `x` throws satisfies `P`. -/
def Throws (P : ε → Prop) (x : EStateM ε σ α) : Prop := ∀ s e s', x s = .error e s' → P e

section Throws

variable {P : ε → Prop}

theorem Throws.mono {Q : ε → Prop} {x : EStateM ε σ α} (h : Throws P x) (hPQ : ∀ e, P e → Q e) :
    Throws Q x := fun s e s' hx => hPQ e (h s e s' hx)

theorem throws_pure (a : α) : Throws P (pure a : EStateM ε σ α) := fun s e s' h => by simp at h

theorem throws_modify (f : σ → σ) : Throws P (modify f : EStateM ε σ PUnit) :=
  fun s e s' h => by simp at h

theorem throws_throw {e : ε} (he : P e) : Throws P (throw e : EStateM ε σ α) := by
  intro s e' s' h
  simp only [throw_apply, EStateM.Result.error.injEq] at h
  exact h.1 ▸ he

theorem throws_orThrow {r : Except ε α} (h : ∀ e, r = .error e → P e) :
    Throws P (orThrow r : EStateM ε σ α) := by
  cases r with
  | ok a => exact throws_pure a
  | error e => exact throws_throw (h e rfl)

theorem throws_bind {x : EStateM ε σ α} {f : α → EStateM ε σ β} (hx : Throws P x)
    (hf : ∀ a, Throws P (f a)) : Throws P (x >>= f) := by
  intro s e s' h
  rcases bind_error.1 h with h | ⟨a, s₁, -, h⟩
  · exact hx s e s' h
  · exact hf a s₁ e s' h

theorem throws_throw_bind {e : ε} (he : P e) (f : α → EStateM ε σ β) :
    Throws P ((throw e : EStateM ε σ α) >>= f) := by
  intro s e' s' h
  simp only [bind_apply, throw_apply, EStateM.Result.error.injEq] at h
  exact h.1 ▸ he

theorem throws_get_bind {f : σ → EStateM ε σ β} (hf : ∀ s e s', f s s = .error e s' → P e) :
    Throws P (get >>= f) := fun s e s' h => hf s e s' h

theorem throws_anyM {p : ι → EStateM ε σ Bool} :
    ∀ {l : List ι}, (∀ a ∈ l, Throws P (p a)) → Throws P (l.anyM p)
  | [], _ => throws_pure false
  | a :: l, h => by
    refine throws_bind (h a List.mem_cons_self) fun b => ?_
    cases b with
    | true => exact throws_pure true
    | false => exact throws_anyM fun a ha => h a (List.mem_cons_of_mem _ ha)

theorem throws_zoom {get : σ → τ} {set : σ → τ → σ} {x : EStateM ε τ α} (hx : Throws P x) :
    Throws P (zoom get set x) := by
  intro s e s' h
  unfold zoom at h
  rcases hr : x (get s) with ⟨a, t⟩ | ⟨e', t⟩ <;> rw [hr] at h
  · simp at h
  · simp only [EStateM.Result.error.injEq] at h
    exact h.1 ▸ hx _ _ _ hr

end Throws

/-! ## Searches -/

/-- A run of `x` that returns `false` changes nothing. -/
def Quiet (x : EStateM ε σ Bool) : Prop := ∀ {s s'}, x s = .ok false s' → s' = s

section Search

variable {p : ι → EStateM ε σ Bool}

theorem anyM_cons_apply (a : ι) (l : List ι) (s : σ) :
    (a :: l).anyM p s = match p a s with
      | .ok true s' => .ok true s'
      | .ok false s' => l.anyM p s'
      | .error e s' => .error e s' := by
  rw [List.anyM_cons, bind_apply]
  rcases p a s with ⟨_ | _, s'⟩ | ⟨e, s'⟩ <;> rfl

theorem anyM_append (l l' : List ι) :
    (l ++ l').anyM p = (do if ← l.anyM p then return true else l'.anyM p) := by
  induction l with
  | nil => rfl
  | cons a l ih =>
    funext s
    rw [List.cons_append, anyM_cons_apply, bind_apply, anyM_cons_apply, ih]
    rcases p a s with ⟨_ | _, s'⟩ | ⟨e, s'⟩ <;> rfl

theorem anyM_map (f : α → ι) (l : List α) : (l.map f).anyM p = l.anyM fun a => p (f a) := by
  induction l with
  | nil => rfl
  | cons a l ih =>
    funext s
    rw [List.map_cons, anyM_cons_apply, anyM_cons_apply, ih]

theorem anyM_flatMap (f : α → List ι) (l : List α) :
    (l.flatMap f).anyM p = l.anyM fun a => (f a).anyM p := by
  induction l with
  | nil => rfl
  | cons a l ih =>
    funext s
    rw [List.flatMap_cons, anyM_append, bind_apply, anyM_cons_apply, ih]
    rcases (f a).anyM p s with ⟨_ | _, s'⟩ | ⟨e, s'⟩ <;> rfl

theorem anyM_congr {q : ι → EStateM ε σ Bool} {l : List ι} (h : ∀ a ∈ l, p a = q a) :
    l.anyM p = l.anyM q := by
  induction l with
  | nil => rfl
  | cons a l ih =>
    rw [List.anyM_cons, List.anyM_cons, h a List.mem_cons_self,
      ih fun b hb => h b (List.mem_cons_of_mem _ hb)]

theorem anyM_false {l : List ι} {s : σ} (h : ∀ a ∈ l, p a s = .ok false s) :
    l.anyM p s = .ok false s := by
  induction l with
  | nil => rfl
  | cons a l ih =>
    rw [anyM_cons_apply, h a List.mem_cons_self]
    exact ih fun b hb => h b (List.mem_cons_of_mem _ hb)

/-- A search of quiet probes that fails has failed at each of them. -/
theorem anyM_ok_false {l : List ι} (hq : ∀ a ∈ l, Quiet (p a)) {s s' : σ}
    (h : l.anyM p s = .ok false s') : s' = s ∧ ∀ a ∈ l, p a s = .ok false s := by
  induction l with
  | nil =>
    cases h
    exact ⟨rfl, by simp⟩
  | cons a l ih =>
    rw [anyM_cons_apply] at h
    rcases ha : p a s with ⟨_ | _, s₁⟩ | ⟨e, s₁⟩ <;> rw [ha] at h
    · obtain rfl := hq a List.mem_cons_self ha
      obtain ⟨rfl, hl⟩ := ih (fun b hb => hq b (List.mem_cons_of_mem _ hb)) h
      refine ⟨rfl, fun b hb => ?_⟩
      rcases List.mem_cons.1 hb with rfl | hb
      · exact ha
      · exact hl b hb
    · simp at h
    · simp at h

/-- A search that succeeds does so at a probe, in a state that failing probes lead to. -/
theorem anyM_ok_true_after {P : σ → σ → Prop} (hP : Pre P) {l : List ι}
    (hq : ∀ a ∈ l, ∀ s s', p a s = .ok false s' → P s s') {s s' : σ}
    (h : l.anyM p s = .ok true s') : ∃ a ∈ l, ∃ s₁, P s s₁ ∧ p a s₁ = .ok true s' := by
  induction l generalizing s with
  | nil => cases h
  | cons a l ih =>
    rw [anyM_cons_apply] at h
    rcases ha : p a s with ⟨_ | _, s₁⟩ | ⟨e, s₁⟩ <;> rw [ha] at h
    · obtain ⟨b, hb, s₂, hs₂, hpb⟩ := ih (fun b hb => hq b (List.mem_cons_of_mem _ hb)) h
      exact ⟨b, List.mem_cons_of_mem _ hb, s₂,
        hP.trans (hq a List.mem_cons_self s s₁ ha) hs₂, hpb⟩
    · exact ⟨a, List.mem_cons_self, s, hP.refl s, ha.trans h⟩
    · simp at h

/-- A search of quiet probes that succeeds does so at a probe that succeeds from its start. -/
theorem anyM_ok_true {l : List ι} (hq : ∀ a ∈ l, Quiet (p a)) {s s' : σ}
    (h : l.anyM p s = .ok true s') : ∃ a ∈ l, p a s = .ok true s' := by
  obtain ⟨a, ha, s₁, rfl, hs⟩ := anyM_ok_true_after (Pre.frame id) (fun a ha _ _ => hq a ha) h
  exact ⟨a, ha, hs⟩

/-- Where a probe either succeeds or fails without a change, a search succeeds if and only if a
probe does. -/
theorem anyM_ok_true_iff {l : List ι} {s : σ}
    (h : ∀ a ∈ l, p a s = .ok false s ∨ ∃ s', p a s = .ok true s') :
    (∃ s', l.anyM p s = .ok true s') ↔ ∃ a ∈ l, ∃ s', p a s = .ok true s' := by
  induction l with
  | nil => simp
  | cons a l ih =>
    have ih := ih fun b hb => h b (List.mem_cons_of_mem _ hb)
    simp only [List.mem_cons, exists_eq_or_imp, ← ih, anyM_cons_apply]
    rcases h a List.mem_cons_self with ha | ⟨s', ha⟩ <;> simp [ha]

end Search

/-! ## Two runs -/

/-- The outcomes of two runs: both return the same value, in states that `Q` relates for it, or
both throw the same, in states that `E` relates. -/
def Agree (Q : α → σ → τ → Prop) (E : σ → τ → Prop) :
    EStateM.Result ε σ α → EStateM.Result ε τ α → Prop
  | .ok a s, .ok b t => a = b ∧ Q a s t
  | .error e s, .error f t => e = f ∧ E s t
  | _, _ => False

/-- From states that `P` relates the two computations have the same outcome, in states that `Q`
relates if they return and `E` if they throw. -/
def Sim (P : σ → τ → Prop) (Q : α → σ → τ → Prop) (E : σ → τ → Prop) (x : EStateM ε σ α)
    (y : EStateM ε τ α) : Prop :=
  ∀ s t, P s t → Agree Q E (x s) (y t)

/-- The two computations have the same outcome and keep the relation. -/
abbrev Lockstep (P : σ → τ → Prop) (x : EStateM ε σ α) (y : EStateM ε τ α) : Prop :=
  Sim P (fun _ => P) P x y

section Sim

variable {P E : σ → τ → Prop} {Q : α → σ → τ → Prop} {x : EStateM ε σ α} {y : EStateM ε τ α}

theorem Sim.mono {P' : σ → τ → Prop} {Q' : α → σ → τ → Prop} (h : Sim P Q E x y)
    (hP : ∀ s t, P' s t → P s t) (hQ : ∀ a s t, Q a s t → Q' a s t) : Sim P' Q' E x y := by
  intro s t hst
  have h := h s t (hP s t hst)
  unfold Agree at h ⊢
  generalize x s = r at h ⊢
  generalize y t = r' at h ⊢
  cases r <;> cases r'
  · exact ⟨h.1, hQ _ _ _ h.2⟩
  · exact h
  · exact h
  · exact h

/-- A relation that both computations keep relates the states they leave behind. -/
theorem Lockstep.final (h : Lockstep P x y) {s : σ} {t : τ} (hst : P s t) :
    P (final x s) (Exec.final y t) := by
  have h := h s t hst
  unfold Exec.final
  generalize x s = r at h ⊢
  generalize y t = r' at h ⊢
  cases r <;> cases r'
  · exact h.2
  · exact h.elim
  · exact h.elim
  · exact h.2

theorem sim_pure {a : α} (h : ∀ s t, P s t → Q a s t) :
    Sim P Q E (pure a : EStateM ε σ α) (pure a) := fun s t hst => ⟨rfl, h s t hst⟩

theorem sim_throw {e : ε} (h : ∀ s t, P s t → E s t) :
    Sim P Q E (throw e : EStateM ε σ α) (throw e) := fun s t hst => ⟨rfl, h s t hst⟩

theorem sim_orThrow (r : Except ε α) (hQ : ∀ a s t, P s t → Q a s t) (hE : ∀ s t, P s t → E s t) :
    Sim P Q E (orThrow r : EStateM ε σ α) (orThrow r) := by
  cases r with
  | ok a => exact sim_pure (hQ a)
  | error e => exact sim_throw hE

theorem sim_modify {Q : PUnit → σ → τ → Prop} {f : σ → σ} {g : τ → τ}
    (h : ∀ s t, P s t → Q ⟨⟩ (f s) (g t)) :
    Sim P Q E (modify f : EStateM ε σ PUnit) (modify g) := fun s t hst => ⟨rfl, h s t hst⟩

theorem sim_bind {S : β → σ → τ → Prop} {f : α → EStateM ε σ β} {g : α → EStateM ε τ β}
    (hx : Sim P Q E x y) (hf : ∀ a, Sim (Q a) S E (f a) (g a)) :
    Sim P S E (x >>= f) (y >>= g) := by
  intro s t hst
  have h := hx s t hst
  rw [bind_apply, bind_apply]
  generalize x s = r at h ⊢
  generalize y t = r' at h ⊢
  cases r <;> cases r'
  · obtain ⟨rfl, h⟩ := h
    exact hf _ _ _ h
  · exact h.elim
  · exact h.elim
  · exact h

theorem sim_get_bind {S : β → σ → τ → Prop} {f : σ → EStateM ε σ β} {g : τ → EStateM ε τ β}
    (h : ∀ s t, P s t → Agree S E (f s s) (g t t)) : Sim P S E (get >>= f) (get >>= g) := h

theorem lockstep_pure (a : α) : Lockstep P (pure a : EStateM ε σ α) (pure a) :=
  sim_pure fun _ _ h => h

theorem lockstep_orThrow (r : Except ε α) :
    Lockstep P (orThrow r : EStateM ε σ α) (orThrow r) :=
  sim_orThrow r (fun _ _ _ h => h) fun _ _ h => h

theorem lockstep_bind {f : α → EStateM ε σ β} {g : α → EStateM ε τ β} (hx : Lockstep P x y)
    (hf : ∀ a, Lockstep P (f a) (g a)) : Lockstep P (x >>= f) (y >>= g) :=
  sim_bind hx hf

end Sim

end Exec
