import MfExtensions.Proofs.ParseBoolean

/-!
# Reading a WHERE clause

A printed domain expression over conditions of the rule is read back as its tree
(`DomainOrExpr.reads`). The other way round, every condition the parser puts in one is a condition
of the rule, and its name begins with no keyword (`ensures_domainExpr`).
-/

namespace MfExtensions

open Peg Peg.Parser Exec

variable {N : String → Prop} {be : BooleanExpr CondArg} {de : DomainExpr String}

namespace RuleParse

variable {name : String} {r : RuleParse}

/-- The argument of a condition of the rule is taken, and of no other. -/
theorem insertCondArg_eq (name : String) (arg : Char) (r : RuleParse) : insertCondArg name arg r =
    if r.has name then
      .ok (name, if arg = 's' then .source else .target)
        { r with
          notified := r.notified ++ [(name, if arg = 's' then .source else .target)] }
    else .error (.runtime ("update_notify_list: name '" ++ name ++ "' not found")) r := by
  unfold insertCondArg updateNotifyList
  rw [bind_apply, bind_apply, get_apply]
  dsimp only
  by_cases h : r.has name = true
  · have hidx : ∀ ns : List CondArg, getCondIdx name { r with notified := ns } =
        .ok name { r with notified := ns } := by
      intro ns
      unfold getCondIdx
      rw [bind_apply, get_apply]
      exact congrFun (if_pos h) _
    rw [if_pos h, if_pos h, modify_apply]
    dsimp only
    rw [bind_apply, hidx]
    rfl
  · rw [if_neg h, if_neg h, throw_apply]

theorem insertCondArg_ok (h : N name) (x : Side) (hr : Filled N be de r) :
    ∃ c r', insertCondArg name x.char r = .ok c r' ∧ c = (name, x.argT) ∧ Filled N be de r' := by
  have htype : (if x.char = 's' then ArgT.source else ArgT.target) = x.argT := by cases x <;> rfl
  rw [insertCondArg_eq, if_pos ((hr.has name).2 h), htype]
  exact ⟨_, _, rfl, rfl, hr.has, hr.boolean, hr.domain⟩

end RuleParse

namespace DomainExprParser

/-- What can stand after a condition of a domain expression. -/
abbrev AfterCond : List Char → Prop := Followed [none, some 'A', some 'O', some ')']

abbrev AfterAnd : List Char → Prop := Followed [none, some 'O', some ')']

abbrev AfterOr : List Char → Prop := Followed [none, some ')']

theorem reads_condArg {F : List Char → Prop} {c : CondSide}
    (hc : Avoids ["AND", "OR", "ANY"] c.1.str ∧ N c.1.str) :
    Reads (Filled N be de) condArg F (CondSide.tokens c)
      fun a s => a = CondSide.condArg c ∧ Filled N be de s := by
  show Reads _ _ _ ([c.1.token] ++ .word ".$" :: ([c.2.token] ++ [])) _
  refine (reads_key hc.1).bind_eq (.after_lit rfl ?_) (G := fun _ => True) fun _ _ _ _ => trivial
  refine (reads_charSt c.2).bind_eq ?_ (G := fun _ => True) fun _ _ _ _ => trivial
  exact reads_effect fun s hs => RuleParse.insertCondArg_ok hc.2 c.2 hs

theorem fails_keywords {w : String} (hw : w ∈ ["AND", "OR"]) :
    Fails (noCase w) (Token.word "ANY").At := by
  refine fails_noCase fun cs ⟨more, hskip, _⟩ => ?_
  rw [hskip]
  simp only [List.mem_cons, List.not_mem_nil, or_false] at hw
  rcases hw with rfl | rfl <;> rfl

/-- `ANY` is not a key. -/
theorem fails_key_any : Fails key (Token.word "ANY").At := by
  have hread : ∀ J : RuleParse → Prop,
      Reads J keywords (fun _ => True) [.word "ANY"] fun _ => J := by
    intro J
    exact ((reads_noCase "ANY").alt_right (fails_keywords (by simp)) fun _ _ hsp _ =>
      hsp.token_at).alt_right (fails_keywords (by simp)) fun _ _ hsp _ => hsp.token_at
  refine (fails_diff fun cs s ⟨more, hskip, hends⟩ => ?_).bind _
  obtain ⟨a, s', hrun, rfl⟩ := hread (· = s) cs more s rfl (.cons hskip hends (.nil more)) trivial
  exact ⟨a, more, hrun⟩

/-- The chain ends before the `=` of its end. -/
theorem fails_chain (last : ChainEnd) : Fails (do let _ ← lit "="; list condArg (lit "="))
    (Past last.tokens AfterCond) := by
  have hpast : ∀ {F : List Char → Prop}, Fails key F →
      Fails (do let _ ← lit "="; list condArg (lit "=")) (Past [.word "="] F) :=
    fun h => .past (v := ()) (fun J => (reads_lit rfl).mono fun _ _ h => ⟨rfl, h⟩)
      ((h.bind _).bind _)
  cases last with
  | none =>
    intro cs s ⟨rest, hsp, hF⟩
    cases hsp
    exact (fails_lit rfl (by decide)).bind _ cs s hF
  | any =>
    intro cs s ⟨rest, hsp, _⟩
    cases hsp with
    | cons hskip hends hany =>
      exact hpast fails_key_any cs s ⟨_, .cons hskip hends (.nil _), hany.token_at⟩
  | str x =>
    intro cs s ⟨rest, hsp, _⟩
    cases hsp with
    | cons hskip hends hstr =>
      refine hpast fails_key cs s ⟨_, .cons hskip hends (.nil _), fun c hc => ?_⟩
      rw [hstr.next_eq rfl, Option.mem_some_iff] at hc
      rw [← hc]
      rfl

/-- The name of the condition is read as a key, and it is a condition of the rule. -/
def Listed (N : String → Prop) (n : Name) : Prop := Avoids ["AND", "OR", "ANY"] n.str ∧ N n.str

theorem reads_chain (last : ChainEnd) (c : CondSide) (cs : List CondSide)
    (h : ∀ x ∈ c :: cs, Listed N x.1) :
    Reads (Filled N be de) (list condArg (lit "=")) (Past last.tokens AfterCond)
      (CondSide.tokens c ++ cs.flatMap fun c => .word "=" :: CondSide.tokens c)
      fun as s => as = (c :: cs).map CondSide.condArg ∧ Filled N be de s := by
  have hsep : Consumes (lit "=" : RuleParser Unit) := consumes_lit (by decide)
  obtain ⟨hc, hcs⟩ := List.forall_mem_cons.1 h
  induction cs generalizing c with
  | nil =>
    rw [List.flatMap_nil, List.append_nil]
    exact .list_one_eq hsep (reads_condArg hc) (fun _ _ => trivial) (fails_chain last)
  | cons c' cs ih =>
    obtain ⟨hc', hcs'⟩ := List.forall_mem_cons.1 hcs
    exact .list_cons_eq hsep (reads_condArg hc) (reads_lit rfl) (ih c' hcs hc' hcs')
      fun _ _ _ => trivial

theorem reads_end {I : RuleParse → Prop} (last : ChainEnd) :
    Reads I (opt (do lit "="; str <|> (do lit "ANY"; return ""))) AfterCond last.tokens
      fun o s => o.getD "" = last.string ∧ I s := by
  have hread : ∀ {t : Token} {v : String}, Reads I (str <|> (do lit "ANY"; return "")) AfterCond [t]
      (fun a s => a = v ∧ I s) → Reads I (opt (do lit "="; str <|> (do lit "ANY"; return "")))
        AfterCond [.word "=", t] fun o s => o.getD "" = v ∧ I s := by
    intro t v h
    have hseq : Reads I (do lit "="; str <|> (do lit "ANY"; return "")) AfterCond
        [.word "=", t] fun a s => a = v ∧ I s := .after_lit rfl h
    exact hseq.opt_getD ""
  cases last with
  | none => exact reads_opt_default ((fails_lit rfl (by decide)).bind _) ""
  | any =>
    refine hread (((reads_lit rfl).map fun _ _ h => ⟨rfl, h⟩).alt_right (G := Followed [some 'A'])
      (fails_str (by decide)) fun cs rest hsp _ => hsp.followed rfl (by decide))
  | str x => exact hread (reads_str x).alt_left

theorem domainExpr_eq : domainExpr = list (domainAndexpr domainExpr) (lit "OR") :=
  rule_eq fun _ _ _ h => .list (.list (.alt (.bind_consumes (consumes_lit (by decide)) fun _ =>
    .bind h fun _ => .refl _ _) (.refl _ _)) _) _

theorem reads_chainCond (c : CondSide) (cs : List CondSide) (last : ChainEnd)
    (h : ∀ x ∈ c :: cs, Listed N x.1) :
    Reads (Filled N be de) (domainCond domainExpr) AfterCond (DomainPrimary.chain c cs last).tokens
      fun b s => (DomainPrimary.chain c cs last).Denotes b ∧ Filled N be de s := by
  have htokens : (DomainPrimary.chain c cs last).tokens = (CondSide.tokens c ++
      cs.flatMap fun c => .word "=" :: CondSide.tokens c) ++ last.tokens := by
    rw [List.append_assoc]
    rfl
  refine Reads.alt_right ?_ (fails_paren c.1) fun cs rest hsp _ => hsp.token_at
  rw [htokens]
  refine (reads_chain last c cs h).bind_eq ?_ fun cs rest hsp hF => ⟨rest, hsp, hF⟩
  exact (reads_end last).map fun o s ho => ⟨by rw [ho.1]; rfl, ho.2⟩

end DomainExprParser

section Trees

open DomainExprParser

mutual

theorem DomainPrimary.reads : ∀ p : DomainPrimary, (∀ n ∈ p.conds, Listed N n) →
    Reads (Filled N be de) (domainCond domainExpr) AfterCond p.tokens
      fun b s => p.Denotes b ∧ Filled N be de s
  | .expr e, hn => .alt_left ((DomainOrExpr.reads e hn).parens (by decide))
  | .chain c cs last, hn => reads_chainCond c cs last (by simpa [DomainPrimary.conds] using hn)

theorem DomainAndExpr.reads : ∀ a : DomainAndExpr, (∀ n ∈ a.conds, Listed N n) →
    Reads (Filled N be de) (domainAndexpr domainExpr) AfterAnd a.tokens
      fun bs s => a.Denotes bs ∧ Filled N be de s
  | .one p, hn =>
    .list_one (consumes_lit (by decide)) (DomainPrimary.reads p hn)
      (fun cs h => h.mono (by simp)) ((fails_lit rfl (by decide)).bind _)
  | .and p a, hn => by
    obtain ⟨hnp, hna⟩ := List.forall_mem_append.1 hn
    exact .list_cons (consumes_lit (by decide)) (DomainPrimary.reads p hnp) (reads_lit rfl)
      (DomainAndExpr.reads a hna) fun cs rest hsp => hsp.followed rfl (by decide)

theorem DomainOrExpr.reads : ∀ e : DomainOrExpr, (∀ n ∈ e.conds, Listed N n) →
    Reads (Filled N be de) domainExpr AfterOr e.tokens
      fun as s => e.Denotes as ∧ Filled N be de s
  | .one a, hn => by
    rw [domainExpr_eq]
    exact .list_one (consumes_lit (by decide)) (DomainAndExpr.reads a hn)
      (fun cs h => h.mono (by simp)) ((fails_lit rfl (by decide)).bind _)
  | .or a e, hn => by
    obtain ⟨hna, hne⟩ := List.forall_mem_append.1 hn
    have hmore := DomainOrExpr.reads e hne
    rw [domainExpr_eq] at hmore ⊢
    exact .list_cons (consumes_lit (by decide)) (DomainAndExpr.reads a hna) (reads_lit rfl) hmore
      fun cs rest hsp => hsp.followed rfl (by decide)

end

end Trees

/-! ## What the parser makes -/

/-- Every condition is one of the rule and is not named like a keyword begins. -/
inductive DomainCond.Parsed (N : String → Prop) : DomainCond String → Prop
  | expr {e : DomainExpr String} (h : ∀ bs ∈ e, ∀ b ∈ bs, Parsed N b) : Parsed N (.expr e)
  | chain {cs : List CondArg} {s : String}
    (h : ∀ c ∈ cs, Avoids ["AND", "OR", "ANY"] c.1 ∧ N c.1) : Parsed N (.chain cs s)

/-- The rule has these conditions and this boolean expression, and what is set of its `WHERE` clause
was parsed. -/
structure Clause (N : String → Prop) (be : BooleanExpr CondArg) (r : RuleParse) : Prop where
  has : ∀ name, r.has name = true ↔ N name
  boolean : r.booleanExpr = be
  domain : ∀ bs ∈ r.domainExpr, ∀ b ∈ bs, b.Parsed N

namespace DomainExprParser

theorem ensures_condArg : Ensures (Clause N be)
    (fun c => Avoids ["AND", "OR", "ANY"] c.1 ∧ N c.1) condArg := by
  refine ensures_key.bind fun a ha => (ensures_token _).bind fun _ _ => ?_
  refine (ensures_token _).bind fun arg _ => ensures_effect fun s c s' hs h => ?_
  rw [RuleParse.insertCondArg_eq] at h
  by_cases hhas : s.has a = true
  · rw [if_pos hhas] at h
    cases h
    exact ⟨⟨ha, (hs.has a).1 hhas⟩, hs.has, hs.boolean, hs.domain⟩
  · rw [if_neg hhas] at h
    cases h

theorem ensures_domainExpr : Ensures (Clause N be) (fun e => ∀ bs ∈ e, ∀ b ∈ bs, b.Parsed N)
    domainExpr := by
  refine ensures_rule fun p hp => .list (.list (.alt ?_ ?_) (ensures_token _)) (ensures_token _)
  · refine (ensures_token _).bind fun _ _ => hp.bind fun e he => ?_
    exact (ensures_token _).bind fun _ _ => ensures_pure (.expr he)
  · refine (ensures_condArg.list (ensures_token _)).bind fun cs hcs => ?_
    refine (Ensures.opt (P := fun _ => True) ?_).bind fun o _ => ensures_pure (.chain hcs)
    refine (ensures_token _).bind fun _ _ => .alt ensures_str ?_
    exact (ensures_token _).bind fun _ _ => ensures_pure trivial

end DomainExprParser

mutual

theorem DomainPrimary.of_parsed : ∀ {p : DomainPrimary} {b : DomainCond String},
    p.Denotes b → b.Parsed N → ∀ n ∈ p.conds, DomainExprParser.Listed N n
  | .expr e, b, h, hb => by
    obtain ⟨as, rfl, has⟩ := h
    cases hb with
    | expr hb => exact DomainOrExpr.of_parsed has hb
  | .chain c cs last, b, h, hb => by
    obtain rfl : b = .chain ((c :: cs).map CondSide.condArg) last.string := h
    cases hb with
    | chain hcs =>
      have hlisted : ∀ x ∈ c :: cs, DomainExprParser.Listed N x.1 := by
        intro x hx
        exact hcs (CondSide.condArg x) (List.mem_map.2 ⟨x, hx, rfl⟩)
      intro n hn
      obtain rfl | hn := List.mem_cons.1 hn
      · exact hlisted c List.mem_cons_self
      · obtain ⟨x, hx, rfl⟩ := List.mem_map.1 hn
        exact hlisted x (List.mem_cons_of_mem _ hx)

theorem DomainAndExpr.of_parsed : ∀ {a : DomainAndExpr} {bs : List (DomainCond String)},
    a.Denotes bs → (∀ b ∈ bs, b.Parsed N) → ∀ n ∈ a.conds, DomainExprParser.Listed N n
  | .one p, bs, h, hbs => by
    obtain ⟨b, rfl, hb⟩ := h
    exact DomainPrimary.of_parsed hb (List.forall_mem_singleton.1 hbs)
  | .and p a, bs, h, hbs => by
    obtain ⟨b, bs', rfl, hb, hbs'⟩ := h
    exact List.forall_mem_append.2
      ⟨DomainPrimary.of_parsed hb (List.forall_mem_cons.1 hbs).1,
        DomainAndExpr.of_parsed hbs' (List.forall_mem_cons.1 hbs).2⟩

theorem DomainOrExpr.of_parsed : ∀ {e : DomainOrExpr} {as : DomainExpr String},
    e.Denotes as → (∀ bs ∈ as, ∀ b ∈ bs, b.Parsed N) →
      ∀ n ∈ e.conds, DomainExprParser.Listed N n
  | .one a, as, h, has => by
    obtain ⟨bs, rfl, hbs⟩ := h
    exact DomainAndExpr.of_parsed hbs (List.forall_mem_singleton.1 has)
  | .or a e, as, h, has => by
    obtain ⟨bs, as', rfl, hbs, has'⟩ := h
    exact List.forall_mem_append.2
      ⟨DomainAndExpr.of_parsed hbs (List.forall_mem_cons.1 has).1,
        DomainOrExpr.of_parsed has' (List.forall_mem_cons.1 has).2⟩

end

end MfExtensions
