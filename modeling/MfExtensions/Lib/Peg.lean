import Mathlib.Data.List.TakeWhile
import Mathlib.Logic.Function.Iterate
import Mathlib.Order.Basic

/-!
# Parsers with ordered choice

Parsers of a list of characters that skip the white space before a token, take the first
alternative that matches and turn back to where they were when one does not. A parser may run an
action on a state, which may throw; what an action changed stays when the parser turns back.

A recursive rule is iterated as often as the text has characters. Where every use of the rule
within itself comes after a character is read (`Guarded`) it satisfies its own equation
(`rule_eq`), and so do `star` and `list` (`star_eq`, `list_eq`).
-/

namespace Peg

/-- A value and the text left, no match, or what an action threw. -/
inductive Outcome (ε σ α : Type)
  | ok (a : α) (rest : List Char) (s : σ)
  | fail (s : σ)
  | error (e : ε)

variable {ε σ α β γ : Type}

namespace Outcome

def bind (x : Outcome ε σ α) (f : α → List Char → σ → Outcome ε σ β) : Outcome ε σ β :=
  match x with
  | .ok a rest s => f a rest s
  | .fail s => .fail s
  | .error e => .error e

theorem bind_ok {x : Outcome ε σ α} {f : α → List Char → σ → Outcome ε σ β} {b : β}
    {rest : List Char} {s : σ} (h : x.bind f = .ok b rest s) :
    ∃ a mid t, x = .ok a mid t ∧ f a mid t = .ok b rest s := by
  cases x with
  | ok a mid t => exact ⟨a, mid, t, rfl, h⟩
  | fail _ => cases h
  | error _ => cases h

theorem bind_assoc (x : Outcome ε σ α) (f : α → List Char → σ → Outcome ε σ β)
    (g : β → List Char → σ → Outcome ε σ γ) :
    (x.bind f).bind g = x.bind fun a rest s => (f a rest s).bind g := by
  cases x <;> rfl

end Outcome

/-- A parser leaves no more text than there was. -/
@[ext] structure Parser (ε σ α : Type) where
  run : List Char → σ → Outcome ε σ α
  length_le : ∀ {cs s a rest s'}, run cs s = .ok a rest s' → rest.length ≤ cs.length

/-- ASCII white space. -/
def space (c : Char) : Bool := c == ' ' || '\t' ≤ c && c ≤ '\r'

def skip (cs : List Char) : List Char := cs.dropWhile space

theorem length_skip_le (cs : List Char) : (skip cs).length ≤ cs.length :=
  List.length_dropWhile_le _ _

/-- The first character past the white space. -/
def next (cs : List Char) : Option Char := (skip cs).head?

/-- What is read at once, without white space between its characters. -/
structure Scanner (α : Type) where
  run : List Char → Option (α × List Char)
  length_le : ∀ {cs a rest}, run cs = some (a, rest) → rest.length ≤ cs.length

namespace Scanner

def wordRun (w cs : List Char) : Option (Unit × List Char) :=
  if w.isPrefixOf cs then some ((), cs.drop w.length) else none

theorem wordRun_length {w cs rest : List Char} {a : Unit} (h : wordRun w cs = some (a, rest)) :
    rest.length + w.length ≤ cs.length := by
  unfold wordRun at h
  split at h
  · next hw =>
    have hle := (List.isPrefixOf_iff_prefix.1 hw).length_le
    cases h
    rw [List.length_drop]
    omega
  · cases h

def word (w : List Char) : Scanner Unit :=
  ⟨wordRun w, fun h => (Nat.le_add_right _ _).trans (wordRun_length h)⟩

/-- `cs` begins with the word, in any letter case. -/
def begins (w cs : List Char) : Bool := (w.map Char.toLower).isPrefixOf (cs.map Char.toLower)

def noCaseRun (w cs : List Char) : Option (Unit × List Char) :=
  if begins w cs then some ((), cs.drop w.length) else none

theorem noCaseRun_le {w cs rest : List Char} {a : Unit} (h : noCaseRun w cs = some (a, rest)) :
    rest.length ≤ cs.length := by
  unfold noCaseRun at h
  split at h
  · cases h
    exact (List.drop_sublist _ _).length_le
  · cases h

/-- A word in any letter case. -/
def noCase (w : List Char) : Scanner Unit := ⟨noCaseRun w, noCaseRun_le⟩

def satRun (p : Char → Bool) : List Char → Option (Char × List Char)
  | [] => none
  | c :: cs => if p c then some (c, cs) else none

theorem satRun_le {p : Char → Bool} {a : Char} {rest : List Char} :
    ∀ {cs : List Char}, satRun p cs = some (a, rest) → rest.length ≤ cs.length
  | c :: cs, h => by
    rw [satRun] at h
    split at h
    · cases h
      exact Nat.le_succ _
    · cases h

def sat (p : Char → Bool) : Scanner Char := ⟨satRun p, satRun_le⟩

def nameRun (p q : Char → Bool) : List Char → Option (List Char × List Char)
  | [] => none
  | c :: cs => if p c then some (c :: cs.takeWhile q, cs.dropWhile q) else none

theorem nameRun_le {p q : Char → Bool} {a rest : List Char} :
    ∀ {cs : List Char}, nameRun p q cs = some (a, rest) → rest.length ≤ cs.length
  | c :: cs, h => by
    rw [nameRun] at h
    split at h
    · cases h
      exact (List.length_dropWhile_le q cs).trans (Nat.le_succ _)
    · cases h

/-- A character of `p` and as many of `q` as there are. -/
def name (p q : Char → Bool) : Scanner (List Char) := ⟨nameRun p q, nameRun_le⟩

def quotedRun (quote : Char) (p : Char → Bool) (cs : List Char) :
    Option (List Char × List Char) :=
  match cs with
  | [] => none
  | c :: cs =>
    if c == quote && (cs.takeWhile p).length != 0 && (cs.dropWhile p).head? == some quote then
      some (cs.takeWhile p, (cs.dropWhile p).tail)
    else none

theorem quotedRun_le {quote : Char} {p : Char → Bool} {a rest : List Char} :
    ∀ {cs : List Char}, quotedRun quote p cs = some (a, rest) → rest.length ≤ cs.length
  | c :: cs, h => by
    rw [quotedRun] at h
    split at h
    · cases h
      have hle := List.length_dropWhile_le p cs
      rw [List.length_tail, List.length_cons]
      omega
    · cases h

/-- One or more characters of `p` between quotes. -/
def quoted (quote : Char) (p : Char → Bool) : Scanner (List Char) :=
  ⟨quotedRun quote p, quotedRun_le⟩

end Scanner

namespace Parser

def tokenRun (scan : Scanner α) (cs : List Char) (s : σ) : Outcome ε σ α :=
  match scan.run (skip cs) with
  | some (a, rest) => .ok a rest s
  | none => .fail s

theorem tokenRun_ok {scan : Scanner α} {cs rest : List Char} {s s' : σ} {a : α}
    (h : (tokenRun scan cs s : Outcome ε σ α) = .ok a rest s') :
    scan.run (skip cs) = some (a, rest) := by
  unfold tokenRun at h
  split at h
  · next a' rest' hscan =>
    cases h
    exact hscan
  · cases h

theorem tokenRun_le {scan : Scanner α} {cs rest : List Char} {s s' : σ} {a : α}
    (h : (tokenRun scan cs s : Outcome ε σ α) = .ok a rest s') : rest.length ≤ cs.length :=
  (scan.length_le (tokenRun_ok h)).trans (length_skip_le cs)

/-- Read a token past the white space before it. -/
def token (scan : Scanner α) : Parser ε σ α := ⟨tokenRun scan, tokenRun_le⟩

def lit (w : String) : Parser ε σ Unit := token (.word w.toList)

/-- The parser that matches nothing. -/
def fail : Parser ε σ α := ⟨fun _ s => .fail s, fun h => nomatch h⟩

def pureRun (a : α) (cs : List Char) (s : σ) : Outcome ε σ α := .ok a cs s

theorem pureRun_le {a b : α} {cs rest : List Char} {s s' : σ}
    (h : (pureRun a cs s : Outcome ε σ α) = .ok b rest s') : rest.length ≤ cs.length := by
  cases h
  exact le_rfl

def bindRun (p : Parser ε σ α) (k : α → Parser ε σ β) (cs : List Char) (s : σ) : Outcome ε σ β :=
  (p.run cs s).bind fun a rest s => (k a).run rest s

theorem bindRun_le {p : Parser ε σ α} {k : α → Parser ε σ β} {cs rest : List Char} {s s' : σ}
    {b : β} (h : bindRun p k cs s = .ok b rest s') : rest.length ≤ cs.length := by
  obtain ⟨a, mid, t, hp, hk⟩ := Outcome.bind_ok h
  exact ((k a).length_le hk).trans (p.length_le hp)

instance : Monad (Parser ε σ) where
  pure a := ⟨pureRun a, pureRun_le⟩
  bind p k := ⟨bindRun p k, bindRun_le⟩

@[simp] theorem run_bind (p : Parser ε σ α) (k : α → Parser ε σ β) (cs : List Char) (s : σ) :
    (p >>= k).run cs s = (p.run cs s).bind fun a rest s => (k a).run rest s := rfl

theorem bind_assoc (p : Parser ε σ α) (k : α → Parser ε σ β) (l : β → Parser ε σ γ) :
    p >>= k >>= l = p >>= fun a => k a >>= l := by
  ext cs s
  simp only [run_bind, Outcome.bind_assoc]

/-- Run an action, which reads nothing. -/
def effectRun (x : EStateM ε σ α) (cs : List Char) (s : σ) : Outcome ε σ α :=
  match x s with
  | .ok a s => .ok a cs s
  | .error e _ => .error e

theorem effectRun_le {x : EStateM ε σ α} {cs rest : List Char} {s s' : σ} {a : α}
    (h : effectRun x cs s = .ok a rest s') : rest.length ≤ cs.length := by
  unfold effectRun at h
  split at h
  · cases h
    exact le_rfl
  · cases h

def effect (x : EStateM ε σ α) : Parser ε σ α := ⟨effectRun x, effectRun_le⟩

def altRun (p q : Parser ε σ α) (cs : List Char) (s : σ) : Outcome ε σ α :=
  match p.run cs s with
  | .fail s => q.run cs s
  | r => r

theorem altRun_ok {p q : Parser ε σ α} {cs rest : List Char} {s s' : σ} {a : α}
    (h : altRun p q cs s = .ok a rest s') :
    p.run cs s = .ok a rest s' ∨ ∃ t, p.run cs s = .fail t ∧ q.run cs t = .ok a rest s' := by
  unfold altRun at h
  split at h
  · next t hp => exact .inr ⟨t, hp, h⟩
  · exact .inl h

theorem altRun_le {p q : Parser ε σ α} {cs rest : List Char} {s s' : σ} {a : α}
    (h : altRun p q cs s = .ok a rest s') : rest.length ≤ cs.length := by
  obtain hp | ⟨t, -, hq⟩ := altRun_ok h
  · exact p.length_le hp
  · exact q.length_le hq

/-- The second parser reads what the first does not match. -/
def alt (p q : Parser ε σ α) : Parser ε σ α := ⟨altRun p q, altRun_le⟩

instance : OrElse (Parser ε σ α) := ⟨fun p q => alt p (q ())⟩

def opt (p : Parser ε σ α) : Parser ε σ (Option α) :=
  (do return some (← p)) <|> pure none

def diffRun (p : Parser ε σ α) (q : Parser ε σ β) (cs : List Char) (s : σ) : Outcome ε σ α :=
  match q.run cs s with
  | .ok _ _ s => .fail s
  | .fail s => p.run cs s
  | .error e => .error e

theorem diffRun_ok {p : Parser ε σ α} {q : Parser ε σ β} {cs rest : List Char} {s s' : σ} {a : α}
    (h : diffRun p q cs s = .ok a rest s') :
    ∃ t, q.run cs s = .fail t ∧ p.run cs t = .ok a rest s' := by
  unfold diffRun at h
  split at h
  · cases h
  · next t hq => exact ⟨t, hq, h⟩
  · cases h

theorem diffRun_le {p : Parser ε σ α} {q : Parser ε σ β} {cs rest : List Char} {s s' : σ} {a : α}
    (h : diffRun p q cs s = .ok a rest s') : rest.length ≤ cs.length := by
  obtain ⟨t, -, hp⟩ := diffRun_ok h
  exact p.length_le hp

/-- Read what the first parser reads where the second does not match. -/
def diff (p : Parser ε σ α) (q : Parser ε σ β) : Parser ε σ α := ⟨diffRun p q, diffRun_le⟩

/-- A rule that may use itself. -/
def rule (F : Parser ε σ α → Parser ε σ α) : Parser ε σ α where
  run cs s := (F^[cs.length + 1] fail).run cs s
  length_le h := (F^[_] fail).length_le h

/-- Read with `p` as often as it matches. -/
def star (p : Parser ε σ α) : Parser ε σ (List α) :=
  rule fun self => (do return (← p) :: (← self)) <|> pure []

/-- One or more, with a separator between them. -/
def list (p : Parser ε σ α) (sep : Parser ε σ β) : Parser ε σ (List α) := do
  return (← p) :: (← star (do let _ ← sep; p))

/-! ## Recursive rules -/

/-- The two parsers do the same on a text of fewer than `n` characters. -/
def Agree (n : ℕ) (p q : Parser ε σ α) : Prop := ∀ cs s, cs.length < n → p.run cs s = q.run cs s

/-- Within the rule it is used on a shorter text. -/
def Guarded (F : Parser ε σ α → Parser ε σ α) : Prop :=
  ∀ n p q, Agree n p q → Agree (n + 1) (F p) (F q)

/-- Every match reads a character. -/
def Consumes (p : Parser ε σ α) : Prop :=
  ∀ ⦃cs s a rest s'⦄, p.run cs s = .ok a rest s' → rest.length < cs.length

theorem consumes_lit {w : String} (hw : w.toList ≠ []) : Consumes (lit w : Parser ε σ Unit) := by
  intro cs s a rest s' h
  have hlen := Scanner.wordRun_length (tokenRun_ok h)
  have hskip := length_skip_le cs
  have hpos := List.length_pos_iff.2 hw
  omega

theorem Consumes.bind {p : Parser ε σ α} (hp : Consumes p) (k : α → Parser ε σ β) :
    Consumes (p >>= k) := by
  intro cs s b rest s' h
  obtain ⟨a, mid, t, hmid, hk⟩ := Outcome.bind_ok h
  exact ((k a).length_le hk).trans_lt (hp hmid)

theorem Agree.refl (n : ℕ) (p : Parser ε σ α) : Agree n p p := fun _ _ _ => rfl

theorem Agree.bind {n : ℕ} {p q : Parser ε σ α} {k l : α → Parser ε σ β} (hp : Agree n p q)
    (hk : ∀ a, Agree n (k a) (l a)) : Agree n (p >>= k) (q >>= l) := by
  intro cs s hcs
  rw [run_bind, run_bind, ← hp cs s hcs]
  cases hrun : p.run cs s with
  | ok a rest t => exact hk a rest t ((p.length_le hrun).trans_lt hcs)
  | fail t => rfl
  | error e => rfl

theorem Agree.bind_consumes {n : ℕ} {p : Parser ε σ α} {k l : α → Parser ε σ β} (hp : Consumes p)
    (hk : ∀ a, Agree n (k a) (l a)) : Agree (n + 1) (p >>= k) (p >>= l) := by
  intro cs s hcs
  rw [run_bind, run_bind]
  cases hrun : p.run cs s with
  | ok a rest t =>
    have hlt := hp hrun
    exact hk a rest t (by omega)
  | fail t => rfl
  | error e => rfl

theorem Agree.alt {n : ℕ} {p p' q q' : Parser ε σ α} (hp : Agree n p p') (hq : Agree n q q') :
    Agree n (p <|> q) (p' <|> q') := by
  intro cs s hcs
  show altRun p q cs s = altRun p' q' cs s
  unfold altRun
  rw [← hp cs s hcs]
  cases hrun : p.run cs s with
  | ok a rest t => rfl
  | fail t => exact hq cs t hcs
  | error e => rfl

theorem Agree.iterate {n : ℕ} {F G : Parser ε σ α → Parser ε σ α}
    (h : ∀ p q, Agree n p q → Agree n (F p) (G q)) (p : Parser ε σ α) :
    ∀ k, Agree n (F^[k] p) (G^[k] p)
  | 0 => .refl n p
  | k + 1 => by
    rw [Function.iterate_succ_apply', Function.iterate_succ_apply']
    exact h _ _ (Agree.iterate h p k)

theorem Agree.star {n : ℕ} {p q : Parser ε σ α} (h : Agree n p q) :
    Agree n (star p) (star q) := by
  intro cs s hcs
  refine Agree.iterate (fun r t hrt => ?_) fail _ cs s hcs
  exact .alt (.bind h fun a => .bind hrt fun as => .refl n _) (.refl n _)

theorem Agree.list {n : ℕ} {p q : Parser ε σ α} (h : Agree n p q) (sep : Parser ε σ β) :
    Agree n (list p sep) (list q sep) :=
  .bind h fun _ => .bind (.star (.bind (.refl n sep) fun _ => h)) fun _ => .refl n _

variable {F : Parser ε σ α → Parser ε σ α}

theorem Guarded.iterate (hF : Guarded F) (p q : Parser ε σ α) :
    ∀ n, Agree n (F^[n] p) (F^[n] q)
  | 0 => fun _ _ h => absurd h (Nat.not_lt_zero _)
  | n + 1 => by
    rw [Function.iterate_succ_apply', Function.iterate_succ_apply']
    exact hF n _ _ (hF.iterate p q n)

theorem Guarded.agree_rule (hF : Guarded F) (n : ℕ) : Agree n (F^[n] fail) (rule F) := by
  intro cs s hcs
  obtain ⟨k, rfl⟩ := Nat.exists_eq_add_of_lt hcs
  show _ = (F^[cs.length + 1] fail).run cs s
  rw [Nat.add_right_comm, Function.iterate_add_apply]
  exact hF.iterate _ _ _ cs s (Nat.lt_succ_self _)

/-- A guarded rule is what its definition says. -/
theorem rule_eq (hF : Guarded F) : rule F = F (rule F) := by
  ext cs s
  show (F^[cs.length + 1] fail).run cs s = _
  rw [Function.iterate_succ_apply']
  exact hF _ _ _ (hF.agree_rule _) cs s (Nat.lt_succ_self _)

theorem star_eq {p : Parser ε σ α} (hp : Consumes p) :
    star p = ((do return (← p) :: (← star p)) <|> pure []) :=
  rule_eq fun _ _ _ h => .alt (.bind_consumes hp fun _ => .bind h fun _ => .refl _ _) (.refl _ _)

/-- A list goes on with a list. -/
theorem list_eq (p : Parser ε σ α) {sep : Parser ε σ β} (hsep : Consumes sep) :
    list p sep = (do
      let a ← p
      let as ← (do let _ ← sep; list p sep) <|> pure []
      return a :: as) := by
  unfold list
  refine congrArg (p >>= ·) (funext fun a => congrArg (· >>= _) ?_)
  exact (star_eq (hsep.bind fun _ => p)).trans (by rw [bind_assoc])

end Parser

end Peg
