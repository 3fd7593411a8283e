import MfExtensions.Lib.PegRules

/-!
# The actions of a parse

What an action changed stays when the parser turns back. `Acts act acts B b p` says what `p` leaves
behind all the same: one that matches has taken the actions of what it read, or is followed by a
text in which nothing goes on (`B`, of the next character); one that does not match has taken none,
or `b`. A list turns back in front of a separator, so what follows it then starts with one
(`Acts.list`), and where the separator cannot follow, the whole parse fails.
-/

namespace Peg

namespace Parser

variable {ε σ α β γ : Type}

theorem lit_ok {w : String} {cs rest : List Char} {s s' : σ}
    (h : (lit w : Parser ε σ Unit).run cs s = .ok () rest s') {c : Char}
    (hw : w.toList.head? = some c) : s' = s ∧ next cs = some c := by
  have hscan : Scanner.wordRun w.toList (skip cs) = some ((), rest) := tokenRun_ok h
  have hrun : tokenRun (.word w.toList) cs s = (.ok () rest s' : Outcome ε σ Unit) := h
  have hword : (Scanner.word w.toList).run (skip cs) = some ((), rest) := hscan
  refine ⟨?_, ?_⟩
  · rw [tokenRun, hword] at hrun
    cases hrun
    rfl
  · unfold Scanner.wordRun at hscan
    split at hscan
    · next hprefix =>
      obtain ⟨more, hmore⟩ := List.isPrefixOf_iff_prefix.1 hprefix
      obtain ⟨w', hw'⟩ := List.head?_eq_some_iff.1 hw
      rw [next, ← hmore, hw']
      rfl
    · cases hscan

theorem lit_fail {w : String} {cs : List Char} {s s' : σ}
    (h : (lit w : Parser ε σ Unit).run cs s = .fail s') : s' = s :=
  (ensures_token (I := (· = s)) (.word w.toList)).of_fail rfl h

theorem bind_fail {p : Parser ε σ α} {k : α → Parser ε σ β} {cs : List Char} {s s' : σ}
    (h : (p >>= k).run cs s = .fail s') :
    p.run cs s = .fail s' ∨ ∃ a mid t, p.run cs s = .ok a mid t ∧ (k a).run mid t = .fail s' := by
  rw [run_bind] at h
  cases hp : p.run cs s with
  | ok a mid t =>
    rw [hp] at h
    exact .inr ⟨a, mid, t, rfl, h⟩
  | fail t =>
    rw [hp] at h
    cases h
    exact .inl rfl
  | error e =>
    rw [hp] at h
    cases h

/-- The parser leaves the state alone. -/
def Still (p : Parser ε σ α) : Prop := ∀ s, Ensures (· = s) (fun _ => True) p

theorem Still.bind {p : Parser ε σ α} {k : α → Parser ε σ β} (hp : Still p)
    (hk : ∀ a, Still (k a)) : Still (p >>= k) := fun s => (hp s).bind fun a _ => hk a s

theorem Still.opt {p : Parser ε σ α} (hp : Still p) : Still (opt p) :=
  fun s => (hp s).opt.mono fun _ _ => trivial

/-- There is always a match. -/
def Total (p : Parser ε σ α) : Prop := ∀ cs s s', p.run cs s ≠ .fail s'

theorem total_alt_pure (p : Parser ε σ α) (a : α) : Total (p <|> pure a) := by
  intro cs s s' h
  obtain ⟨u, -, h⟩ := alt_fail h
  cases h

theorem total_opt (p : Parser ε σ α) : Total (opt p) := total_alt_pure _ _

theorem Total.map {p : Parser ε σ α} (hp : Total p) (f : α → β) :
    Total (do return f (← p)) := by
  intro cs s s' h
  rcases bind_fail h with hp' | ⟨a, mid, t, -, hret⟩
  · exact hp cs s s' hp'
  · cases hret

section Acts

variable {act : γ → σ → σ} {acts : α → List γ} {B : Option Char → Prop} {b : Prop}
  {p q : Parser ε σ α}

/-- What a parser leaves behind of its actions. -/
structure Acts (act : γ → σ → σ) (acts : α → List γ) (B : Option Char → Prop) (b : Prop)
    (p : Parser ε σ α) : Prop where
  ok : ∀ {cs s a rest s'}, p.run cs s = .ok a rest s' →
    s' = (acts a).foldl (fun s x => act x s) s ∨ B (next rest)
  fail : ∀ {cs s s'}, p.run cs s = .fail s' → s' = s ∨ b

theorem Acts.mono {B' : Option Char → Prop} {b' : Prop} (h : Acts act acts B b p)
    (hB : ∀ o, B o → B' o) (hb : b → b') : Acts act acts B' b' p :=
  ⟨fun hrun => (h.ok hrun).imp_right (hB _), fun hrun => (h.fail hrun).imp_right hb⟩

theorem acts_fail : Acts act acts B b (Parser.fail : Parser ε σ α) := by
  constructor
  · intro cs s a rest s' h
    cases h
  · intro cs s s' h
    cases h
    exact .inl rfl

theorem acts_effect {x : EStateM ε σ α} (h : ∀ s a s', x s = .ok a s' →
    s' = (acts a).foldl (fun s x => act x s) s) : Acts act acts B b (effect x) := by
  constructor
  · intro cs s a rest s' hrun
    have hrun : effectRun x cs s = .ok a rest s' := hrun
    unfold effectRun at hrun
    split at hrun
    · next hx =>
      cases hrun
      exact .inl (h _ _ _ hx)
    · cases hrun
  · intro cs s s' hrun
    have hrun : effectRun x cs s = .fail s' := hrun
    unfold effectRun at hrun
    split at hrun <;> cases hrun

/-- Actions after something that leaves the state alone. -/
theorem Acts.after {p : Parser ε σ β} {k : β → Parser ε σ α} (hp : Still p)
    (hk : ∀ a, Acts act acts B b (k a)) : Acts act acts B b (p >>= k) := by
  constructor
  · intro cs s a rest s' h
    obtain ⟨x, mid, t, hx, hrun⟩ := Outcome.bind_ok h
    obtain rfl := ((hp s).of_ok rfl hx).2
    exact (hk x).ok hrun
  · intro cs s s' h
    rcases bind_fail h with hx | ⟨x, mid, t, hx, hrun⟩
    · exact .inl ((hp s).of_fail rfl hx)
    · obtain rfl := ((hp s).of_ok rfl hx).2
      exact (hk x).fail hrun

/-- Something that leaves the state alone after the actions, and always matches. -/
theorem Acts.before {acts' : β → List γ} {k : α → Parser ε σ β}
    (hp : Acts act acts (fun _ => False) b p) (htotal : ∀ a, Total (k a))
    (hk : ∀ a s, Ensures (· = s) (fun c => acts' c = acts a) (k a)) :
    Acts act acts' B b (p >>= k) := by
  constructor
  · intro cs s c rest s' hrun
    obtain ⟨a, mid, t, ha, hrun⟩ := Outcome.bind_ok hrun
    obtain ⟨hacts, rfl⟩ := (hk a t).of_ok rfl hrun
    rw [hacts]
    exact (hp.ok ha).imp_right False.elim
  · intro cs s s' hrun
    rcases bind_fail hrun with ha | ⟨a, mid, t, -, hrun⟩
    · exact hp.fail ha
    · exact absurd hrun (htotal a mid t s')

/-- The second parser starts where the first has taken no action. -/
theorem Acts.alt (hp : Acts act acts B False p) (hq : Acts act acts B b q) :
    Acts act acts B b (p <|> q) := by
  constructor
  · intro cs s a rest s' h
    rcases altRun_ok h with hrun | ⟨t, hmiss, hrun⟩
    · exact hp.ok hrun
    · obtain rfl := (hp.fail hmiss).resolve_right id
      exact hq.ok hrun
  · intro cs s s' h
    obtain ⟨t, hmiss, hrun⟩ := alt_fail h
    obtain rfl := (hp.fail hmiss).resolve_right id
    exact hq.fail hrun

/-- What stands between parentheses, or something else that does not start with one. -/
theorem Acts.parens_alt {acts' : β → List γ} {q : Parser ε σ β} {f : α → β}
    (hp : Acts act acts B True p) (hB : ¬B (some ')')) (hf : ∀ a, acts' (f a) = acts a)
    (hq : Acts act acts' (fun _ => False) False q) (hfails : Fails q (Followed [some '('])) :
    Acts act acts' (fun _ => False) True ((do
      lit "("
      let a ← p
      lit ")"
      return f a) <|> q) := by
  refine ⟨fun {cs s x rest s'} h => .inl ?_, fun _ => .inr trivial⟩
  rcases altRun_ok h with hrun | ⟨t, hmiss, hrun⟩
  · obtain ⟨⟨⟩, mid₁, t₁, hopen, h₁⟩ := Outcome.bind_ok hrun
    obtain ⟨a, mid₂, t₂, ha, h₂⟩ := Outcome.bind_ok h₁
    obtain ⟨⟨⟩, mid₃, t₃, hclose, h₃⟩ := Outcome.bind_ok h₂
    cases h₃
    obtain ⟨rfl, -⟩ := lit_ok hopen rfl
    obtain ⟨rfl, hnext⟩ := lit_ok hclose rfl
    rw [hf]
    exact (hp.ok ha).resolve_right (hnext ▸ hB)
  · -- past the parenthesis actions may have been taken, but then the second parser fails too
    rcases bind_fail hmiss with hopen | ⟨⟨⟩, mid, t₁, hopen, -⟩
    · obtain rfl := lit_fail hopen
      exact (hq.ok hrun).resolve_right id
    · have hparen := hfails cs t (List.mem_singleton.2 (lit_ok hopen rfl).2)
      rw [hparen] at hrun
      cases hrun

/-- A rule may use itself. -/
theorem acts_rule {F : Parser ε σ α → Parser ε σ α}
    (hF : ∀ p, Acts act acts B b p → Acts act acts B b (F p)) : Acts act acts B b (rule F) := by
  have hiter : ∀ n, Acts act acts B b (F^[n] Parser.fail) := fun n => by
    induction n with
    | zero => exact acts_fail
    | succ n ih =>
      rw [Function.iterate_succ_apply']
      exact hF _ ih
  exact ⟨fun {cs} _ _ _ _ h => (hiter (cs.length + 1)).ok h,
    fun {cs} _ _ h => (hiter (cs.length + 1)).fail h⟩

theorem foldl_flatMap_cons (a : α) (as : List α) (s : σ) :
    ((a :: as).flatMap acts).foldl (fun s x => act x s) s =
      (as.flatMap acts).foldl (fun s x => act x s) ((acts a).foldl (fun s x => act x s) s) := by
  rw [List.flatMap_cons, List.foldl_append]

/-- A list ends where nothing goes on, or turns back in front of a separator. -/
theorem Acts.list (hp : Acts act acts B b p) {w : String} {c : Char}
    (hw : w.toList.head? = some c) (hc : ¬B (some c)) :
    Acts act (fun as => as.flatMap acts) (fun o => B o ∨ b ∧ o = some c) b (list p (lit w)) := by
  have hsep : Consumes (lit w : Parser ε σ Unit) := consumes_lit fun h => by simp [h] at hw
  have hend : Total ((do let _ ← lit w; Parser.list p (lit w)) <|> pure []) := total_alt_pure _ _
  have hfail : ∀ {cs : List Char} {s s' : σ}, (Parser.list p (lit w)).run cs s = .fail s' →
      s' = s ∨ b := by
    intro cs s s' h
    rw [list_eq p hsep] at h
    rcases bind_fail h with ha | ⟨a, mid, t, -, h₁⟩
    · exact hp.fail ha
    · rcases bind_fail h₁ with has | ⟨as, mid', t', -, h₂⟩
      · exact absurd has (hend mid t s')
      · cases h₂
  refine ⟨fun {cs} => ?_, hfail⟩
  -- by the length of the text, which the separator makes shorter
  induction hn : cs.length using Nat.strong_induction_on generalizing cs with
  | _ n ih =>
    intro s l rest s' h
    rw [list_eq p hsep] at h
    obtain ⟨a, mid, t, ha, h₁⟩ := Outcome.bind_ok h
    obtain ⟨as, mid', t', has, h₂⟩ := Outcome.bind_ok h₁
    cases h₂
    have hhead := hp.ok ha
    rcases altRun_ok has with hmore | ⟨u, hmiss, hnil⟩
    · obtain ⟨⟨⟩, mid₁, t₁, hlit, hlist⟩ := Outcome.bind_ok hmore
      obtain ⟨rfl, hnext⟩ := lit_ok hlit hw
      have hlt : mid₁.length < n := hn ▸ (hsep hlit).trans_le (p.length_le ha)
      rw [foldl_flatMap_cons, ← hhead.resolve_right (hnext ▸ hc)]
      exact ih _ hlt rfl hlist
    · cases hnil
      rcases bind_fail hmiss with hlit | ⟨⟨⟩, mid₁, t₁, hlit, hlist⟩
      · obtain rfl := lit_fail hlit
        rw [foldl_flatMap_cons]
        exact hhead.imp_right .inl
      · obtain ⟨rfl, hnext⟩ := lit_ok hlit hw
        rcases hfail hlist with rfl | hb
        · rw [foldl_flatMap_cons]
          exact hhead.imp_right .inl
        · exact .inr (.inr ⟨hb, hnext⟩)

/-- Two levels of operators. -/
theorem Acts.list_list (hp : Acts act acts (fun _ => False) True p) {w v : String} {c d : Char}
    (hw : w.toList.head? = some c) (hv : v.toList.head? = some d) (hcd : c ≠ d) :
    Acts act (fun e => e.flatMap fun as => as.flatMap acts) (fun o => o = some c ∨ o = some d) True
      (Parser.list (Parser.list p (lit w)) (lit v)) := by
  have hinner := (hp.list hw id).mono (fun o h => h.resolve_left id |>.2) id
  have hsep : ¬some d = some c := fun h => hcd (Option.some_inj.1 h).symm
  exact (hinner.list hv hsep).mono (fun o h => h.imp_right And.right) id

end Acts

end Parser

end Peg
