import MfExtensions.Lib.Exec
import MfExtensions.Lib.PegRules

/-!
# Parsers that throw

`Yields p F ts x` says that on every spelling of the tokens `ts` that is followed by a text in `F`
the parser comes to `x`: to a value, with the state as it was, or to an exception. Where
`Reads` is about the trees a parser takes, this is about the trees it may refuse with an exception
too, and which of several is thrown: `x` is read from left to right as the tokens are.
-/

namespace Peg

variable {ε σ α β γ : Type}

/-- A value read up to `rest`, or what was thrown. -/
def Outcome.of (x : Except ε α) (rest : List Char) (s : σ) : Outcome ε σ α :=
  match x with
  | .ok a => .ok a rest s
  | .error e => .error e

namespace Parser

/-- Nothing is read: `p` must not match. -/
def notAhead (p : Parser ε σ α) : Parser ε σ Unit := diff (pure ()) p

section Yields

variable {F G : List Char → Prop} {ts us : List Token} {p q : Parser ε σ α} {v : α}
  {x : Except ε α}

def Yields (p : Parser ε σ α) (F : List Char → Prop) (ts : List Token) (x : Except ε α) : Prop :=
  ∀ cs rest s, Spells ts cs rest → F rest → p.run cs s = .of x rest s

/-- A parser that leaves every state alone. -/
theorem Reads.yields (h : ∀ s₀ : σ, Reads (· = s₀) p F ts fun a s => a = v ∧ s = s₀) :
    Yields p F ts (.ok v) := by
  intro cs rest s hsp hF
  obtain ⟨a, s', hrun, rfl, rfl⟩ := h s cs rest s rfl hsp hF
  exact hrun

theorem yields_pure (a : α) : Yields (pure a : Parser ε σ α) F [] (.ok a) :=
  Reads.yields fun _ => reads_pure a

/-- An action that throws, or leaves the state alone. -/
theorem yields_effect (x : Except ε α) :
    Yields (effect (Exec.orThrow x) : Parser ε σ α) F [] x := by
  intro cs rest s hsp _
  cases hsp
  cases x <;> rfl

/-- One parser after the other: the second is reached where the first does not throw. -/
theorem Yields.bind (hp : Yields p G ts x) {k : α → Parser ε σ β} {y : α → Except ε β}
    (hk : ∀ a, x = .ok a → Yields (k a) F us (y a))
    (hG : ∀ cs rest, Spells us cs rest → F rest → G cs) :
    Yields (p >>= k) F (ts ++ us) (x >>= y) := by
  intro cs rest s hsp hF
  obtain ⟨mid, hts, hus⟩ := hsp.append
  rw [run_bind, hp cs mid s hts (hG mid rest hus hF)]
  cases x with
  | ok a => exact hk a rfl mid rest s hus hF
  | error e => rfl

/-- The first parser reads one value. -/
theorem Yields.bind_ok (hp : Yields p G ts (.ok v)) {k : α → Parser ε σ β} {y : Except ε β}
    (hk : Yields (k v) F us y) (hG : ∀ cs rest, Spells us cs rest → F rest → G cs) :
    Yields (p >>= k) F (ts ++ us) y :=
  hp.bind (y := fun _ => y) (fun _ ha => Except.ok.inj ha ▸ hk) hG

/-- The last parser of a sequence. -/
theorem Yields.map (hp : Yields p F ts x) (f : α → β) :
    Yields (do return f (← p)) F ts (do return f (← x)) := by
  rw [← List.append_nil ts]
  refine hp.bind (fun a _ => yields_pure (f a)) fun cs rest hsp hF => ?_
  cases hsp
  exact hF

theorem yields_lit {w : String} {t : Token} (ht : t.text = w.toList) :
    Yields (lit w : Parser ε σ Unit) F [t] (.ok ()) :=
  Reads.yields fun _ => (reads_lit ht).mono fun _ _ h => ⟨rfl, h⟩

/-- A word, and then what the parser yields. -/
theorem Yields.after_lit {w : String} {t : Token} (ht : t.text = w.toList)
    (hp : Yields p F ts x) : Yields (do lit w; p) F (t :: ts) x :=
  (yields_lit ht (F := fun _ => True)).bind_ok hp fun _ _ _ _ => trivial

/-- What the parser yields stands between parentheses. -/
theorem Yields.parens {os : List (Option Char)} (hp : Yields p (Followed os) ts x)
    (hos : some ')' ∈ os) (f : α → β) :
    Yields (do
      lit "("
      let a ← p
      lit ")"
      return f a) F (.word "(" :: (ts ++ [.word ")"])) (do return f (← x)) := by
  refine .after_lit rfl (hp.bind (fun a _ => ?_) fun cs rest hsp _ => hsp.followed rfl hos)
  exact .after_lit rfl (yields_pure (f a))

theorem Yields.alt_left (hp : Yields p F ts x) : Yields (p <|> q) F ts x := by
  intro cs rest s hsp hF
  show altRun p q cs s = _
  rw [altRun, hp cs rest s hsp hF]
  cases x <;> rfl

theorem Yields.alt_right (hq : Yields q F ts x) (hp : Fails p G)
    (hG : ∀ cs rest, Spells ts cs rest → F rest → G cs) : Yields (p <|> q) F ts x := by
  intro cs rest s hsp hF
  show altRun p q cs s = _
  rw [altRun, hp cs s (hG cs rest hsp hF)]
  exact hq cs rest s hsp hF

theorem Yields.opt_some (hp : Yields p F ts x) : Yields (opt p) F ts (do return some (← x)) :=
  (hp.map some).alt_left

theorem yields_opt_none (hp : Fails p F) : Yields (opt p) F [] (.ok none) :=
  Reads.yields fun _ => reads_opt_none hp

theorem yields_notAhead (hp : Fails p F) : Yields (notAhead p) F [] (.ok ()) := by
  refine Reads.yields fun s₀ => ((reads_pure ()).diff hp fun cs rest hsp hF => ?_)
  cases hsp
  exact hF

/-- The parser matches, and nothing may be there that it matches. -/
theorem fails_notAhead (hp : ∀ cs s, F cs → ∃ b rest, p.run cs s = .ok b rest s) :
    Fails (notAhead p) F := fails_diff hp

variable {sep : Parser ε σ β} (hsep : Consumes sep)

include hsep

/-- A list of one: no separator, or nothing to read after it, follows. -/
theorem Yields.list_one (hp : Yields p G ts x) (hG : ∀ cs, F cs → G cs)
    (hend : Fails (do let _ ← sep; list p sep) F) :
    Yields (list p sep) F ts (do return [← x]) := by
  rw [list_eq p hsep, ← List.append_nil ts]
  refine hp.bind (fun a _ => ?_) fun cs rest hsp hF => by
    cases hsp
    exact hG _ hF
  have hnone : Yields ((do let _ ← sep; list p sep) <|> pure []) F [] (.ok []) :=
    (yields_pure []).alt_right hend fun cs rest hsp hF => by
      cases hsp
      exact hF
  exact hnone.map (a :: ·)

/-- A list that goes on. -/
theorem Yields.list_cons {t : Token} {y : Except ε (List α)} {b : β} (hp : Yields p G ts x)
    (hread : Yields sep (fun _ => True) [t] (.ok b)) (hmore : Yields (list p sep) F us y)
    (hG : ∀ cs rest, Spells (t :: us) cs rest → G cs) :
    Yields (list p sep) F (ts ++ t :: us) (do return (← x) :: (← y)) := by
  rw [list_eq p hsep]
  refine hp.bind (fun a _ => ?_) fun cs rest hsp _ => hG cs rest hsp
  have hrest : Yields (do let _ ← sep; list p sep) F ([t] ++ us) y :=
    hread.bind_ok hmore fun _ _ _ _ => trivial
  exact hrest.alt_left.map (a :: ·)

end Yields

end Parser

end Peg
