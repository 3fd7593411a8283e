import MfExtensions.Lib.Peg

/-!
# Rules for parsers

`Ensures I P p`: every run of `p` keeps the invariant `I` of the state, and what it reads has `P`.

`Spells ts cs rest` says that `cs` is a spelling of the tokens `ts` and then `rest`: white space is
free before a token, and needed only where a character would be read as more of the token before.
`Reads I p F ts Q` says that from a state with `I` the parser reads just these tokens from every
spelling of them that is followed by a text in `F`, and comes to a value and a state in `Q`. The
text that follows has to be known, as with ordered choice it decides which optional part is read.
-/

namespace Peg

variable {ε σ α β γ : Type}

/-- What a run has kept and read. -/
def Outcome.Holds (I : σ → Prop) (P : α → Prop) : Outcome ε σ α → Prop
  | .ok a _ s => P a ∧ I s
  | .fail s => I s
  | .error _ => True

namespace Parser

/-! ## Invariants -/

section Ensures

variable {I : σ → Prop} {P : α → Prop} {Q : β → Prop} {p q : Parser ε σ α}

def Ensures (I : σ → Prop) (P : α → Prop) (p : Parser ε σ α) : Prop :=
  ∀ cs s, I s → (p.run cs s).Holds I P

theorem Ensures.of_ok (hp : Ensures I P p) {cs rest : List Char} {s s' : σ} {a : α} (hs : I s)
    (h : p.run cs s = .ok a rest s') : P a ∧ I s' := by
  have := hp cs s hs
  rwa [h] at this

theorem Ensures.of_fail (hp : Ensures I P p) {cs : List Char} {s s' : σ} (hs : I s)
    (h : p.run cs s = .fail s') : I s' := by
  have := hp cs s hs
  rwa [h] at this

theorem Ensures.mono {P' : α → Prop} (hp : Ensures I P p) (h : ∀ a, P a → P' a) :
    Ensures I P' p := by
  intro cs s hs
  cases hrun : p.run cs s with
  | ok a rest t => exact ⟨h a (hp.of_ok hs hrun).1, (hp.of_ok hs hrun).2⟩
  | fail t => exact hp.of_fail hs hrun
  | error e => trivial

theorem ensures_pure {a : α} (h : P a) : Ensures I P (pure a : Parser ε σ α) :=
  fun _ _ hs => ⟨h, hs⟩

theorem ensures_fail : Ensures I P (fail : Parser ε σ α) := fun _ _ hs => hs

theorem ensures_token (scan : Scanner α) :
    Ensures I (fun _ => True) (token scan : Parser ε σ α) := by
  intro cs s hs
  show (tokenRun scan cs s).Holds I _
  unfold tokenRun
  split
  · exact ⟨trivial, hs⟩
  · exact hs

theorem Ensures.bind (hp : Ensures I P p) {k : α → Parser ε σ β}
    (hk : ∀ a, P a → Ensures I Q (k a)) : Ensures I Q (p >>= k) := by
  intro cs s hs
  rw [run_bind]
  cases hrun : p.run cs s with
  | ok a rest t =>
    obtain ⟨ha, ht⟩ := hp.of_ok hs hrun
    exact hk a ha rest t ht
  | fail t => exact hp.of_fail hs hrun
  | error e => trivial

theorem Ensures.alt (hp : Ensures I P p) (hq : Ensures I P q) : Ensures I P (p <|> q) := by
  intro cs s hs
  show (altRun p q cs s).Holds I P
  unfold altRun
  split
  · next t hrun => exact hq cs t (hp.of_fail hs hrun)
  · exact hp cs s hs

theorem alt_fail {cs : List Char} {s t : σ} (h : (p <|> q).run cs s = .fail t) :
    ∃ u, p.run cs s = .fail u ∧ q.run cs u = .fail t := by
  have hrun : altRun p q cs s = .fail t := h
  unfold altRun at hrun
  split at hrun
  · next u hp => exact ⟨u, hp, hrun⟩
  · next hne => exact absurd hrun (hne t)

theorem ensures_effect {x : EStateM ε σ α}
    (h : ∀ s a s', I s → x s = .ok a s' → P a ∧ I s') : Ensures I P (effect x) := by
  intro cs s hs
  show (effectRun x cs s).Holds I P
  unfold effectRun
  split
  · next a s' hx => exact h s a s' hs hx
  · trivial

theorem Ensures.opt (hp : Ensures I P p) : Ensures I (fun o => ∀ a ∈ o, P a) (opt p) :=
  .alt (hp.bind fun a ha => ensures_pure fun b hb => by
    obtain rfl := Option.mem_some_iff.1 hb
    exact ha) (ensures_pure fun a ha => nomatch ha)

/-- What a rule ensures if what it uses of itself does. -/
theorem ensures_rule {F : Parser ε σ α → Parser ε σ α}
    (hF : ∀ p, Ensures I P p → Ensures I P (F p)) : Ensures I P (rule F) := by
  have hiter : ∀ n, Ensures I P (F^[n] fail) := fun n => by
    induction n with
    | zero => exact ensures_fail
    | succ n ih =>
      rw [Function.iterate_succ_apply']
      exact hF _ ih
  exact fun cs s hs => hiter (cs.length + 1) cs s hs

theorem Ensures.star (hp : Ensures I P p) : Ensures I (fun as => ∀ a ∈ as, P a) (star p) :=
  ensures_rule fun _ hself =>
    .alt (hp.bind fun _ ha => hself.bind fun _ has =>
      ensures_pure (List.forall_mem_cons.2 ⟨ha, has⟩)) (ensures_pure fun _ h => nomatch h)

theorem Ensures.list (hp : Ensures I P p) {sep : Parser ε σ β} (hsep : Ensures I Q sep) :
    Ensures I (fun as => ∀ a ∈ as, P a) (list p sep) :=
  hp.bind fun _ ha => (hsep.bind fun _ _ => hp).star.bind fun _ has =>
    ensures_pure (List.forall_mem_cons.2 ⟨ha, has⟩)

/-- A list has a first element. -/
theorem Ensures.list_ne_nil (hp : Ensures I P p) {sep : Parser ε σ β} (hsep : Ensures I Q sep) :
    Ensures I (fun as => as ≠ [] ∧ ∀ a ∈ as, P a) (Parser.list p sep) :=
  hp.bind fun _ ha => (hsep.bind fun _ _ => hp).star.bind fun _ has =>
    ensures_pure ⟨List.cons_ne_nil _ _, List.forall_mem_cons.2 ⟨ha, has⟩⟩

end Ensures

end Parser

/-! ## Spellings -/

/-- A token: after it stands no character that `runsOn`. -/
structure Token where
  text : List Char
  runsOn : Char → Bool

/-- A punctuation mark or a word that is read whatever follows it. -/
def Token.word (w : String) : Token := ⟨w.toList, fun _ => false⟩

/-- The token is next, and ends there. -/
def Token.At (t : Token) (cs : List Char) : Prop :=
  ∃ more, skip cs = t.text ++ more ∧ ∀ c ∈ more.head?, t.runsOn c = false

inductive Spells : List Token → List Char → List Char → Prop
  | nil (cs : List Char) : Spells [] cs cs
  | cons {t : Token} {ts : List Token} {cs more rest : List Char}
    (hskip : skip cs = t.text ++ more) (hends : ∀ c ∈ more.head?, t.runsOn c = false)
    (h : Spells ts more rest) : Spells (t :: ts) cs rest

/-- What comes next, `none` at the end of the text. -/
def Followed (os : List (Option Char)) (cs : List Char) : Prop := next cs ∈ os

theorem Followed.mono {os os' : List (Option Char)} {cs : List Char} (h : Followed os cs)
    (hsub : os ⊆ os') : Followed os' cs := hsub h

namespace Spells

variable {t : Token} {ts us : List Token} {cs rest : List Char}

theorem append (h : Spells (ts ++ us) cs rest) : ∃ mid, Spells ts cs mid ∧ Spells us mid rest := by
  induction ts generalizing cs with
  | nil => exact ⟨cs, .nil cs, h⟩
  | cons t ts ih =>
    cases h with
    | cons hskip hends h =>
      obtain ⟨mid, hts, hus⟩ := ih h
      exact ⟨mid, .cons hskip hends hts, hus⟩

theorem next_eq (h : Spells (t :: ts) cs rest) {c : Char} (hc : t.text.head? = some c) :
    next cs = some c := by
  cases h with
  | cons hskip _ _ =>
    obtain ⟨w, hw⟩ := List.head?_eq_some_iff.1 hc
    rw [next, hskip, hw]
    rfl

theorem token_at (h : Spells (t :: ts) cs rest) : t.At cs := by
  cases h with
  | cons hskip hends _ => exact ⟨_, hskip, hends⟩

theorem followed (h : Spells (t :: ts) cs rest) {c : Char} (hc : t.text.head? = some c)
    {os : List (Option Char)} (ho : some c ∈ os) : Followed os cs := by
  rwa [Followed, h.next_eq hc]

end Spells

/-- The token is read with a space on either side. -/
def Token.Spaced (t : Token) : Prop := t.text.head?.any (!space ·) = true ∧ t.runsOn ' ' = false

instance (t : Token) : Decidable t.Spaced := inferInstanceAs (Decidable (_ ∧ _))

/-- The tokens, with a space before each. -/
def spaced (ts : List Token) : List Char := ts.flatMap fun t => ' ' :: t.text

theorem spells_spaced : ∀ {ts : List Token}, (∀ t ∈ ts, t.Spaced) → Spells ts (spaced ts) []
  | [], _ => .nil []
  | t :: ts, h => by
    obtain ⟨hhead, hruns⟩ := h t List.mem_cons_self
    have htail : Spells ts (spaced ts) [] :=
      spells_spaced fun u hu => h u (List.mem_cons_of_mem _ hu)
    refine .cons ?_ ?_ htail
    · obtain ⟨c, hc, hspace⟩ := (Option.any_eq_true _ _).1 hhead
      obtain ⟨w, hw⟩ := List.head?_eq_some_iff.1 hc
      rw [Bool.not_eq_true'] at hspace
      have hblank : space ' ' = true := by decide
      simp [spaced, skip, hw, hblank, hspace]
    · cases ts with
      | nil => exact fun c hc => nomatch hc
      | cons u us =>
        intro c hc
        obtain rfl : ' ' = c := Option.some_inj.1 hc
        exact hruns

namespace Parser

/-! ## What is read of a spelling -/

section Reads

variable {I J : σ → Prop} {F G : List Char → Prop} {ts us : List Token} {P : α → σ → Prop}
  {Q : β → σ → Prop} {p q : Parser ε σ α} {v : α}

def Reads (I : σ → Prop) (p : Parser ε σ α) (F : List Char → Prop) (ts : List Token)
    (P : α → σ → Prop) : Prop :=
  ∀ cs rest s, I s → Spells ts cs rest → F rest → ∃ a s', p.run cs s = .ok a rest s' ∧ P a s'

/-- The parser does not match a text in `F`, and runs no action there. -/
def Fails (p : Parser ε σ α) (F : List Char → Prop) : Prop := ∀ cs s, F cs → p.run cs s = .fail s

theorem Reads.mono {P' : α → σ → Prop} (h : Reads I p F ts P) (hP : ∀ a s, P a s → P' a s) :
    Reads I p F ts P' := fun cs rest s hs hsp hF => by
  obtain ⟨a, s', hrun, hPa⟩ := h cs rest s hs hsp hF
  exact ⟨a, s', hrun, hP a s' hPa⟩

theorem reads_token {scan : Scanner α} {t : Token}
    (h : ∀ more : List Char, (∀ c ∈ more.head?, t.runsOn c = false) →
      scan.run (t.text ++ more) = some (v, more)) :
    Reads I (token scan : Parser ε σ α) F [t] fun a s => a = v ∧ I s := by
  intro cs rest s hs hsp _
  cases hsp with
  | cons hskip hends hnil =>
    cases hnil
    refine ⟨v, s, ?_, rfl, hs⟩
    show tokenRun scan cs s = _
    rw [tokenRun, hskip, h rest hends]

theorem reads_lit {w : String} {t : Token} (ht : t.text = w.toList) :
    Reads I (lit w : Parser ε σ Unit) F [t] fun _ => I := by
  refine (reads_token (v := ()) fun more _ => ?_).mono fun _ _ h => h.2
  show Scanner.wordRun _ _ = _
  rw [ht, Scanner.wordRun, if_pos (List.isPrefixOf_iff_prefix.2 (List.prefix_append _ _)),
    List.drop_left]

theorem reads_pure (a : α) : Reads I (pure a : Parser ε σ α) F [] fun b s => b = a ∧ I s := by
  intro cs rest s hs hsp _
  cases hsp
  exact ⟨a, s, rfl, rfl, hs⟩

theorem reads_effect {x : EStateM ε σ α} (h : ∀ s, I s → ∃ a s', x s = .ok a s' ∧ P a s') :
    Reads I (effect x) F [] P := by
  intro cs rest s hs hsp _
  cases hsp
  obtain ⟨a, s', hx, hP⟩ := h s hs
  refine ⟨a, s', ?_, hP⟩
  show effectRun x cs s = _
  rw [effectRun, hx]

/-- A fact that does not depend on the state. -/
theorem Reads.pull {φ : Prop} (h : φ → Reads I p F ts P) : Reads (fun s => φ ∧ I s) p F ts P :=
  fun cs rest s hs => h hs.1 cs rest s hs.2

/-- One parser after the other: what the first is followed by starts with what the second reads. -/
theorem Reads.bind (hp : Reads I p G ts P) {k : α → Parser ε σ β}
    (hk : ∀ a, Reads (P a) (k a) F us Q) (hG : ∀ cs rest, Spells us cs rest → F rest → G cs) :
    Reads I (p >>= k) F (ts ++ us) Q := by
  intro cs rest s hs hsp hF
  obtain ⟨mid, hts, hus⟩ := hsp.append
  obtain ⟨a, t, hrun, hPa⟩ := hp cs mid s hs hts (hG mid rest hus hF)
  obtain ⟨b, s', hrun', hQ⟩ := hk a mid rest t hPa hus hF
  refine ⟨b, s', ?_, hQ⟩
  rw [run_bind, hrun]
  exact hrun'

/-- The first parser reads one value. -/
theorem Reads.bind_eq (hp : Reads I p G ts fun a s => a = v ∧ J s) {k : α → Parser ε σ β}
    (hk : Reads J (k v) F us Q) (hG : ∀ cs rest, Spells us cs rest → F rest → G cs) :
    Reads I (p >>= k) F (ts ++ us) Q :=
  hp.bind (fun _ => .pull fun ha => ha ▸ hk) hG

/-- The last parser of a sequence. -/
theorem Reads.map (hp : Reads I p F ts P) {f : α → β} (h : ∀ a s, P a s → Q (f a) s) :
    Reads I (do return f (← p)) F ts Q := by
  rw [← List.append_nil ts]
  refine hp.bind (fun a => ?_) fun cs rest hsp hF => by
    cases hsp
    exact hF
  intro cs rest s hs hsp _
  cases hsp
  exact ⟨f a, s, rfl, h a s hs⟩

/-- A word, and then what the parser reads. -/
theorem Reads.after_lit {w : String} {t : Token} (ht : t.text = w.toList)
    (hp : Reads I p F ts P) : Reads I (do lit w; p) F (t :: ts) P :=
  (reads_lit ht).bind (fun _ => hp) (G := fun _ => True) fun _ _ _ _ => trivial

/-- What the parser reads stands between parentheses. -/
theorem Reads.parens {os : List (Option Char)} {A : α → Prop} {f : α → β}
    (hp : Reads I p (Followed os) ts fun a s => A a ∧ J s) (hos : some ')' ∈ os) :
    Reads I (do
      lit "("
      let a ← p
      lit ")"
      return f a) F (.word "(" :: (ts ++ [.word ")"])) fun b s => (∃ a, b = f a ∧ A a) ∧ J s := by
  have hclose : ∀ a, Reads (fun s => A a ∧ J s) (do lit ")"; return f a : Parser ε σ β) F
      [.word ")"] fun b s => (∃ a, b = f a ∧ A a) ∧ J s :=
    fun a => (reads_lit rfl).map fun _ s h => ⟨⟨a, rfl, h.1⟩, h.2⟩
  exact .after_lit rfl (hp.bind hclose fun cs rest hsp _ => hsp.followed rfl hos)

theorem Reads.alt_left (hp : Reads I p F ts P) : Reads I (p <|> q) F ts P := by
  intro cs rest s hs hsp hF
  obtain ⟨a, s', hrun, hP⟩ := hp cs rest s hs hsp hF
  refine ⟨a, s', ?_, hP⟩
  show altRun p q cs s = _
  rw [altRun, hrun]

theorem Reads.alt_right (hq : Reads I q F ts P) (hp : Fails p G)
    (hG : ∀ cs rest, Spells ts cs rest → F rest → G cs) : Reads I (p <|> q) F ts P := by
  intro cs rest s hs hsp hF
  obtain ⟨a, s', hrun, hP⟩ := hq cs rest s hs hsp hF
  refine ⟨a, s', ?_, hP⟩
  show altRun p q cs s = _
  rw [altRun, hp cs s (hG cs rest hsp hF)]
  exact hrun

theorem Reads.diff {q : Parser ε σ β} (hp : Reads I p F ts P) (hq : Fails q G)
    (hG : ∀ cs rest, Spells ts cs rest → F rest → G cs) : Reads I (diff p q) F ts P := by
  intro cs rest s hs hsp hF
  obtain ⟨a, s', hrun, hP⟩ := hp cs rest s hs hsp hF
  refine ⟨a, s', ?_, hP⟩
  show diffRun p q cs s = _
  rw [diffRun, hq cs s (hG cs rest hsp hF)]
  exact hrun

theorem Reads.opt_some (hp : Reads I p F ts fun a s => a = v ∧ J s) :
    Reads I (opt p) F ts fun o s => o = some v ∧ J s :=
  (hp.map fun _ _ h => ⟨congrArg some h.1, h.2⟩).alt_left

theorem reads_opt_none (hp : Fails p F) : Reads I (opt p) F [] fun o s => o = none ∧ I s := by
  refine (reads_pure none).alt_right (G := F) ?_ fun cs rest hsp hF => by
    cases hsp
    exact hF
  intro cs s hF
  rw [run_bind, hp cs s hF]
  rfl

theorem Reads.opt_getD (hp : Reads I p F ts fun a s => a = v ∧ J s) (d : α) :
    Reads I (opt p) F ts fun o s => o.getD d = v ∧ J s :=
  hp.opt_some.mono fun o _ h => ⟨by rw [h.1, Option.getD_some], h.2⟩

theorem reads_opt_default (hp : Fails p F) (d : α) :
    Reads I (opt p) F [] fun o s => o.getD d = d ∧ I s :=
  (reads_opt_none hp).mono fun o _ h => ⟨by rw [h.1, Option.getD_none], h.2⟩

theorem Fails.bind (hp : Fails p F) (k : α → Parser ε σ β) : Fails (p >>= k) F := by
  intro cs s hF
  rw [run_bind, hp cs s hF]
  rfl

/-- The tokens are next, and then a text in `F`. -/
def Past (ts : List Token) (F : List Char → Prop) (cs : List Char) : Prop :=
  ∃ rest, Spells ts cs rest ∧ F rest

/-- The second parser does not match after what the first reads. -/
theorem Fails.past (hp : ∀ J : σ → Prop, Reads J p F ts fun a s => a = v ∧ J s)
    {k : α → Parser ε σ β} (hk : Fails (k v) F) : Fails (p >>= k) (Past ts F) := by
  intro cs s ⟨rest, hsp, hF⟩
  obtain ⟨a, s', hrun, rfl, rfl⟩ := hp (· = s) cs rest s rfl hsp hF
  rw [run_bind, hrun]
  exact hk rest _ hF

theorem Fails.alt (hp : Fails p F) (hq : Fails q F) : Fails (p <|> q) F := by
  intro cs s hF
  show altRun p q cs s = _
  rw [altRun, hp cs s hF]
  exact hq cs s hF

theorem Fails.diff {q : Parser ε σ β} (hp : Fails p F) (hq : Fails q F) : Fails (diff p q) F := by
  intro cs s hF
  show diffRun p q cs s = _
  rw [diffRun, hq cs s hF]
  exact hp cs s hF

/-- What is excluded is there. -/
theorem fails_diff {q : Parser ε σ β}
    (hq : ∀ cs s, F cs → ∃ b rest, q.run cs s = .ok b rest s) : Fails (diff p q) F := by
  intro cs s hF
  obtain ⟨b, rest, hrun⟩ := hq cs s hF
  show diffRun p q cs s = _
  rw [diffRun, hrun]

theorem fails_token {scan : Scanner α} (h : ∀ cs, F cs → scan.run (skip cs) = none) :
    Fails (token scan : Parser ε σ α) F := by
  intro cs s hF
  show tokenRun scan cs s = _
  rw [tokenRun, h cs hF]

theorem fails_lit_at {w : String} {t : Token}
    (h : ∀ more : List Char, (∀ c ∈ more.head?, t.runsOn c = false) →
      w.toList.isPrefixOf (t.text ++ more) = false) :
    Fails (lit w : Parser ε σ Unit) t.At :=
  fails_token fun cs ⟨more, hskip, hends⟩ => by
    show Scanner.wordRun _ _ = none
    rw [Scanner.wordRun, hskip, h more hends, if_neg (by simp)]

/-- A word is not read where another character comes next. -/
theorem fails_lit {w : String} {c : Char} (hw : w.toList.head? = some c)
    {os : List (Option Char)} (h : some c ∉ os) :
    Fails (lit w : Parser ε σ Unit) (Followed os) := by
  refine fails_token fun cs hF => ?_
  obtain ⟨w', hw'⟩ := List.head?_eq_some_iff.1 hw
  have hnot : ¬w.toList <+: skip cs := fun ⟨more, hmore⟩ =>
    h (by rwa [Followed, next, ← hmore, hw'] at hF)
  show Scanner.wordRun _ _ = _
  rw [Scanner.wordRun, if_neg (fun hpre => hnot (List.isPrefixOf_iff_prefix.1 hpre))]

variable {sep : Parser ε σ β} (hsep : Consumes sep)

include hsep

/-- A list of one: no separator, or nothing to read after it, follows. -/
theorem Reads.list_one {A : α → Prop} (hp : Reads I p G ts fun a s => A a ∧ J s)
    (hG : ∀ cs, F cs → G cs) (hend : Fails (do let _ ← sep; list p sep) F) :
    Reads I (list p sep) F ts fun as s => (∃ a, as = [a] ∧ A a) ∧ J s := by
  rw [list_eq p hsep, ← List.append_nil ts]
  refine hp.bind (fun a => .pull fun ha => ?_) fun cs rest hsp hF => by
    cases hsp
    exact hG _ hF
  have hnone : Reads J ((do let _ ← sep; list p sep) <|> pure []) F [] fun as s => as = [] ∧ J s :=
    (reads_pure []).alt_right hend fun cs rest hsp hF => by
      cases hsp
      exact hF
  exact hnone.map fun as s h => ⟨⟨a, by rw [h.1], ha⟩, h.2⟩

/-- A list that goes on. -/
theorem Reads.list_cons {t : Token} {A : α → Prop} {B : List α → Prop} {K : σ → Prop}
    (hp : Reads I p G ts fun a s => A a ∧ J s)
    (hread : Reads J sep (fun _ => True) [t] fun _ => J)
    (hmore : Reads J (list p sep) F us fun as s => B as ∧ K s)
    (hG : ∀ cs rest, Spells (t :: us) cs rest → G cs) :
    Reads I (list p sep) F (ts ++ t :: us)
      fun as s => (∃ a as', as = a :: as' ∧ A a ∧ B as') ∧ K s := by
  rw [list_eq p hsep]
  refine hp.bind (fun a => .pull fun ha => ?_) fun cs rest hsp _ => hG cs rest hsp
  have hrest : Reads J (do let _ ← sep; list p sep) F ([t] ++ us) fun as s => B as ∧ K s :=
    hread.bind (fun _ => hmore) fun _ _ _ _ => trivial
  exact hrest.alt_left.map fun as s h => ⟨⟨a, as, rfl, ha, h.1⟩, h.2⟩

/-- A list of one value. -/
theorem Reads.list_one_eq (hp : Reads I p G ts fun a s => a = v ∧ J s) (hG : ∀ cs, F cs → G cs)
    (hend : Fails (do let _ ← sep; list p sep) F) :
    Reads I (list p sep) F ts fun as s => as = [v] ∧ J s := by
  refine (Reads.list_one hsep hp hG hend).mono fun as s h => ?_
  obtain ⟨⟨a, rfl, rfl⟩, hJ⟩ := h
  exact ⟨rfl, hJ⟩

/-- A list that goes on, of one value and then the others. -/
theorem Reads.list_cons_eq {t : Token} {vs : List α} {K : σ → Prop}
    (hp : Reads I p G ts fun a s => a = v ∧ J s)
    (hread : Reads J sep (fun _ => True) [t] fun _ => J)
    (hmore : Reads J (list p sep) F us fun as s => as = vs ∧ K s)
    (hG : ∀ cs rest, Spells (t :: us) cs rest → G cs) :
    Reads I (list p sep) F (ts ++ t :: us) fun as s => as = v :: vs ∧ K s := by
  refine (Reads.list_cons hsep hp hread hmore hG).mono fun as s h => ?_
  obtain ⟨⟨a, as', rfl, rfl, rfl⟩, hK⟩ := h
  exact ⟨rfl, hK⟩

end Reads

end Parser

end Peg
