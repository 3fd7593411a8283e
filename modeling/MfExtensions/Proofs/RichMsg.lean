import MfExtensions.Proofs.Reporting
import MfExtensions.RichMsg

/-!
# Expanding the messages of a rule

A text that is accepted is a template in one way: texts without `${` between references without a
closing brace (`Template.source_inj`). Each insert position is the length of the stripped text
before it, and the values are put in from the last to the first, so none of them moves a position
that is still to be used (`insertSymbols_render`).
-/

namespace MfExtensions

/-- A text, or a text and a reference with what it refers to, and what follows. -/
inductive Template (C : Type)
  | text (t : List Char)
  | ref (t r : List Char) (p : C × ArgT) (rest : Template C)

/-- What opens a reference. -/
def opening : List Char := ['$', '\x7b']

/-- What closes it. -/
def closing : Char := '\x7d'

namespace Template

variable {C : Type}

def source : Template C → List Char
  | text t => t
  | ref t r _ rest => t ++ (opening ++ (r ++ closing :: rest.source))

/-- The texts with the values of the references between them. -/
def render (val : C × ArgT → List Char) : Template C → List Char
  | text t => t
  | ref t _ p rest => t ++ (val p ++ rest.render val)

def refs : Template C → List (C × ArgT)
  | text _ => []
  | ref _ _ p rest => p :: rest.refs

/-- The texts without the references. -/
def stripped : Template C → List Char
  | text t => t
  | ref t _ _ rest => t ++ rest.stripped

/-- The insert positions, of a template that starts at the position `ins` of the stripped text. -/
def symbols : Template C → ℕ → List (ℕ × C × ArgT)
  | text _, _ => []
  | ref t _ p rest, ins => (ins + t.length, p) :: rest.symbols (ins + t.length)

/-- The texts have no opening, the references no closing, and each refers to what is said. -/
def Parsed [DecidableEq C] (k : RuleConfig C) (name : C → String) : Template C → Prop
  | text t => ¬opening <:+: t
  | ref t r p rest => ¬opening <:+: t ∧ closing ∉ r ∧
      RichMsg.parseMsgRef k name r = .ok (some p) ∧ rest.Parsed k name

theorem refs_length_le (T : Template C) : T.refs.length ≤ T.source.length := by
  induction T with
  | text t => exact Nat.zero_le _
  | ref t r p rest ih =>
    simp only [refs, source, List.length_cons, List.length_append]
    omega

theorem ne_source_ref {t t' r : List Char} {p : C × ArgT} {rest : Template C}
    (h : ¬opening <:+: t') : t' ≠ (ref t r p rest).source := by
  rintro rfl
  refine h ⟨t, r ++ closing :: rest.source, ?_⟩
  rw [source, List.append_assoc]

end Template

namespace RichMsg

/-! ## Finding -/

theorem drop_done (done rest : List Char) (b : ℕ) :
    (done ++ rest).drop (done.length + b) = rest.drop b := by
  rw [← List.drop_drop, List.drop_left]

/-- The first place of `p` in what follows `done`. -/
theorem findFrom_eq_some {p done rest : List Char} {pos : ℕ} :
    findFrom p (done ++ rest) done.length = some pos ↔ ∃ a X, rest = a ++ X ∧ p <+: X ∧
      pos = done.length + a.length ∧ ∀ b < a.length, ¬p <+: rest.drop b := by
  unfold findFrom
  rw [List.find?_range_eq_some]
  simp only [Bool.and_eq_true, decide_eq_true_eq, List.isPrefixOf_iff_prefix, List.mem_range,
    List.length_append, Bool.not_eq_true', Bool.and_eq_false_iff, decide_eq_false_iff_not]
  constructor
  · rintro ⟨⟨hle, hp⟩, hlt, hfirst⟩
    obtain ⟨j, rfl⟩ := Nat.exists_eq_add_of_le hle
    have hj : (rest.take j).length = j := by
      rw [List.length_take]
      omega
    rw [drop_done] at hp
    refine ⟨rest.take j, rest.drop j, (List.take_append_drop j rest).symm, hp, by rw [hj],
      fun b hb hpre => ?_⟩
    rw [hj] at hb
    rcases hfirst (done.length + b) (by omega) with h | h
    · exact h (Nat.le_add_right _ _)
    · rw [drop_done, ← Bool.not_eq_true, List.isPrefixOf_iff_prefix] at h
      exact h hpre
  · rintro ⟨a, X, rfl, hp, rfl, hfirst⟩
    rw [drop_done, List.drop_left, List.length_append]
    refine ⟨⟨Nat.le_add_right _ _, hp⟩, by omega, fun j hj => ?_⟩
    by_cases hle : done.length ≤ j
    · obtain ⟨b, rfl⟩ := Nat.exists_eq_add_of_le hle
      right
      rw [drop_done, ← Bool.not_eq_true, List.isPrefixOf_iff_prefix]
      exact hfirst b (by omega)
    · exact .inl hle

theorem findFrom_eq_none {p done rest : List Char} :
    findFrom p (done ++ rest) done.length = none ↔ ¬p <:+: rest := by
  unfold findFrom
  rw [List.find?_range_eq_none]
  constructor
  · rintro h ⟨u, v, rfl⟩
    have := h (done.length + u.length) (by simp only [List.length_append]; omega)
    rw [drop_done, List.append_assoc, List.drop_left,
      List.isPrefixOf_iff_prefix.2 (List.prefix_append p v)] at this
    simp at this
  · intro h j _
    rw [Bool.not_eq_true', Bool.and_eq_false_iff, decide_eq_false_iff_not]
    by_cases hle : done.length ≤ j
    · obtain ⟨b, rfl⟩ := Nat.exists_eq_add_of_le hle
      right
      rw [drop_done, ← Bool.not_eq_true, List.isPrefixOf_iff_prefix]
      exact fun hp => h (hp.isInfix.trans (List.drop_suffix b rest).isInfix)
    · exact .inl hle

/-- An opening is found behind a text without one. -/
theorem not_opening_drop {t X : List Char} (ht : ¬opening <:+: t) :
    ∀ b < t.length, ¬opening <+: (t ++ (opening ++ X)).drop b := by
  intro b hb hp
  rw [List.drop_append_of_le_length hb.le] at hp
  rcases hd : t.drop b with _ | ⟨c, _ | ⟨d, u⟩⟩
  · have := List.drop_eq_nil_iff.1 hd
    omega
  · -- the last character of the text is followed by the first of the opening
    rw [hd] at hp
    simp [opening] at hp
  · rw [hd] at hp
    have hpre : opening <+: t.drop b := by
      rw [hd]
      simp [opening] at hp ⊢
      exact hp
    exact ht (hpre.isInfix.trans (List.drop_suffix b t).isInfix)

theorem findFrom_opening (done : List Char) {t : List Char} (ht : ¬opening <:+: t)
    (X : List Char) : findFrom opening (done ++ (t ++ (opening ++ X))) done.length =
      some (done.length + t.length) :=
  findFrom_eq_some.2 ⟨t, _, rfl, List.prefix_append _ _, rfl, not_opening_drop ht⟩

theorem closing_mem_iff {X : List Char} : closing ∈ opening ++ X ↔ closing ∈ X := by
  simp [opening, closing]

theorem findFrom_closing (done : List Char) {r : List Char} (hr : closing ∉ r) (X : List Char) :
    findFrom [closing] (done ++ (opening ++ (r ++ closing :: X))) done.length =
      some (done.length + (opening.length + r.length)) := by
  refine findFrom_eq_some.2 ⟨opening ++ r, closing :: X, by simp, ⟨X, rfl⟩, by simp,
    fun b hb hp => ?_⟩
  have hmem : closing ∈ opening ++ r := by
    rw [← List.append_assoc, List.drop_append_of_le_length hb.le] at hp
    rcases hd : (opening ++ r).drop b with _ | ⟨c, u⟩
    · have := List.drop_eq_nil_iff.1 hd
      omega
    · rw [hd] at hp
      obtain ⟨v, hv⟩ := hp
      obtain rfl := (List.cons.inj hv).1
      exact List.mem_of_mem_drop (hd ▸ List.mem_cons_self)
  exact hr (closing_mem_iff.1 hmem)

/-! ## Parsing -/

variable {C : Type} [DecidableEq C] {k : RuleConfig C} {name : C → String}

theorem substr_done (done a X : List Char) :
    substr (done ++ (a ++ X)) done.length a.length = a := by
  rw [substr, List.drop_left, List.take_left]

/-- One step of the loop at a text and a reference. -/
theorem parseMsgFrom_ref (done : List Char) {t r : List Char} (ht : ¬opening <:+: t)
    (hr : closing ∉ r) (X stripped : List Char) (symbols : List (ℕ × C × ArgT)) (ins fuel : ℕ) :
    parseMsgFrom k name (done ++ (t ++ (opening ++ (r ++ closing :: X)))) (fuel + 1) done.length ins
        stripped symbols =
      parseMsgRef k name r >>= fun o => o.elim (.ok none) fun p =>
        parseMsgFrom k name ((done ++ (t ++ (opening ++ (r ++ [closing])))) ++ X) fuel
          (done ++ (t ++ (opening ++ (r ++ [closing])))).length (ins + t.length) (stripped ++ t)
          (symbols ++ [(ins + t.length, p)]) := by
  have hopen := findFrom_opening done ht (r ++ closing :: X)
  have hclose : findFrom [closing] (done ++ (t ++ (opening ++ (r ++ closing :: X))))
      (done.length + t.length) = some (done.length + t.length + (opening.length + r.length)) := by
    have := findFrom_closing (done ++ t) hr X
    rwa [List.length_append, List.append_assoc] at this
  have htext := substr_done done t (opening ++ (r ++ closing :: X))
  have href : substr (done ++ (t ++ (opening ++ (r ++ closing :: X))))
      (done.length + t.length + 2) r.length = r := by
    have := substr_done (done ++ (t ++ opening)) r (closing :: X)
    rw [List.append_assoc, List.append_assoc, List.length_append, List.length_append,
      ← Nat.add_assoc] at this
    exact this
  have hlen : opening.length + r.length - 2 = r.length := by
    simp only [opening, List.length_cons, List.length_nil]
    omega
  have hold : done.length + t.length + (opening.length + r.length) + 1 =
      (done ++ (t ++ (opening ++ (r ++ [closing])))).length := by
    simp only [List.length_append, List.length_singleton]
    omega
  have hwhole : (done ++ (t ++ (opening ++ (r ++ [closing])))) ++ X =
      done ++ (t ++ (opening ++ (r ++ closing :: X))) := by simp
  unfold opening closing at hopen hclose
  rw [hwhole, ← hold, parseMsgFrom]
  unfold opening closing at *
  simp only [hopen, hclose, Nat.add_sub_cancel_left, htext, hlen, href]
  rcases parseMsgRef k name r with e | _ | p <;> rfl

/-- The loop on a template that follows `done`. -/
theorem parseMsgFrom_template (T : Template C) (hT : T.Parsed k name) (done stripped : List Char)
    (symbols : List (ℕ × C × ArgT)) (ins fuel : ℕ) (hfuel : T.refs.length < fuel) :
    parseMsgFrom k name (done ++ T.source) fuel done.length ins stripped symbols =
      .ok (some (stripped ++ T.stripped, symbols ++ T.symbols ins)) := by
  induction T generalizing done stripped symbols ins fuel with
  | text t =>
    obtain ⟨fuel, rfl⟩ := Nat.exists_eq_succ_of_ne_zero (Nat.ne_of_gt hfuel)
    have hnone : findFrom ['$', '\x7b'] (done ++ t) done.length = none := findFrom_eq_none.2 hT
    simp only [parseMsgFrom, Template.source, hnone, List.drop_left, Template.stripped,
      Template.symbols, List.append_nil]
    split_ifs with hlt
    · rfl
    · have ht : t = [] := by
        rw [List.length_append] at hlt
        exact List.length_eq_zero_iff.1 (by omega)
      rw [ht, List.append_nil]
  | ref t r p rest ih =>
    obtain ⟨fuel, rfl⟩ := Nat.exists_eq_succ_of_ne_zero (Nat.ne_of_gt (Nat.zero_lt_of_lt hfuel))
    obtain ⟨ht, hr, hp, hrest⟩ := hT
    have hfuel' : rest.refs.length < fuel := by
      simp only [Template.refs, List.length_cons] at hfuel
      omega
    have := ih hrest (done ++ (t ++ (opening ++ (r ++ [closing])))) (stripped ++ t)
      (symbols ++ [(ins + t.length, p)]) (ins + t.length) fuel hfuel'
    rw [Template.source, Nat.succ_eq_add_one, parseMsgFrom_ref done ht hr, hp]
    simp only [Template.stripped, Template.symbols]
    rw [List.append_assoc stripped, List.append_assoc symbols] at this
    exact this

/-- What the loop accepts is a template. -/
theorem template_of_parseMsgFrom (done : List Char) {rest stripped : List Char}
    {symbols : List (ℕ × C × ArgT)} {ins fuel : ℕ} {res : List Char × List (ℕ × C × ArgT)}
    (h : parseMsgFrom k name (done ++ rest) fuel done.length ins stripped symbols =
      .ok (some res)) : ∃ T : Template C, T.Parsed k name ∧ T.source = rest := by
  induction fuel generalizing rest done stripped symbols ins with
  | zero => simp [parseMsgFrom] at h
  | succ fuel ih =>
    rcases hopen : findFrom opening (done ++ rest) done.length with _ | pos
    · exact ⟨.text rest, findFrom_eq_none.1 hopen, rfl⟩
    obtain ⟨t, Y, rfl, ⟨X, rfl⟩, rfl, hfirst⟩ := findFrom_eq_some.1 hopen
    have ht : ¬opening <:+: t := by
      rintro ⟨u, v, rfl⟩
      refine hfirst u.length ?_ ?_
      · simp only [List.length_append, opening, List.length_cons]
        omega
      · rw [List.append_assoc, List.append_assoc, List.drop_left]
        exact List.prefix_append _ _
    by_cases hX : closing ∈ X
    · obtain ⟨r, Y, rfl, hr⟩ := List.eq_append_cons_of_mem hX
      rw [parseMsgFrom_ref done ht hr] at h
      rcases hp : parseMsgRef k name r with e | _ | p <;> rw [hp] at h
      · exact nomatch h
      · exact nomatch h
      · obtain ⟨T, hT, rfl⟩ := ih _ h
        exact ⟨.ref t r p T, ⟨ht, hr, hp, hT⟩, rfl⟩
    · have hclose : findFrom [closing] ((done ++ t) ++ (opening ++ X)) (done ++ t).length =
          none := findFrom_eq_none.2 fun hin =>
        hX (closing_mem_iff.1 (hin.sublist.subset List.mem_cons_self))
      rw [List.length_append, List.append_assoc] at hclose
      unfold opening closing at *
      simp only [parseMsgFrom, hopen, hclose] at h
      exact nomatch h

end RichMsg

section

variable {C : Type} [DecidableEq C] {k : RuleConfig C} {name : C → String}

/-- A text is a template in one way. -/
theorem Template.source_inj {T T' : Template C} (hT : T.Parsed k name) (hT' : T'.Parsed k name)
    (h : T.source = T'.source) : T = T' := by
  induction T generalizing T' with
  | text t =>
    cases T' with
    | text t' => exact congrArg text h
    | ref t' r p rest => exact absurd h (ne_source_ref hT)
  | ref t r p rest ih =>
    cases T' with
    | text t' => exact absurd h.symm (ne_source_ref hT')
    | ref t' r' p' rest' =>
      obtain ⟨ht, hr, hp, hrest⟩ := hT
      obtain ⟨ht', hr', hp', hrest'⟩ := hT'
      simp only [source] at h
      -- both texts end where the first opening is
      have hlen : t.length = t'.length := by
        have hopen := RichMsg.findFrom_opening [] ht (r ++ closing :: rest.source)
        rw [h, RichMsg.findFrom_opening [] ht'] at hopen
        simpa using hopen.symm
      obtain ⟨rfl, hopen⟩ := List.append_inj h hlen
      have hlen' : r.length = r'.length := by
        have hclose := RichMsg.findFrom_closing [] hr rest.source
        rw [hopen, RichMsg.findFrom_closing [] hr'] at hclose
        simpa using hclose.symm
      obtain ⟨rfl, hclose⟩ := List.append_inj (List.append_cancel_left hopen) hlen'
      have hsource := List.tail_eq_of_cons_eq hclose
      rw [hp] at hp'
      obtain rfl : p = p' := by simpa using hp'
      rw [ih hrest hrest' hsource]

namespace RichMsg

/-- A text is accepted iff it is a template. -/
theorem init_eq_ok_iff {s : String} {m : RichMsg C} : init k name s = .ok m ↔
    ∃ T : Template C, T.Parsed k name ∧ T.source = s.toList ∧
      m = ⟨String.ofList T.stripped, T.symbols 0⟩ := by
  have hinit (T : Template C) (hT : T.Parsed k name) (hs : T.source = s.toList) :
      init k name s = .ok ⟨String.ofList T.stripped, T.symbols 0⟩ := by
    have := parseMsgFrom_template T hT [] [] [] 0 (s.toList.length + 1)
      (by rw [← hs]; exact Nat.lt_succ_of_le T.refs_length_le)
    rw [init, ← hs]
    simp only [List.nil_append, List.length_nil, ← hs] at this
    rw [this]
    rfl
  constructor
  · intro h
    rcases hp : parseMsgFrom k name s.toList (s.toList.length + 1) 0 0 [] [] with e | _ | res
    · rw [init, hp] at h
      exact nomatch h
    · rw [init, hp] at h
      exact nomatch h
    · obtain ⟨T, hT, hs⟩ := template_of_parseMsgFrom [] hp
      rw [hinit T hT hs] at h
      exact ⟨T, hT, hs, (Except.ok.inj h).symm⟩
  · rintro ⟨T, hT, hs, rfl⟩
    exact hinit T hT hs

theorem getCondIdx_mem {s : String} {c : C} (h : getCondIdx k name s = .ok c) :
    c ∈ k.conditions := by
  unfold getCondIdx at h
  rcases hf : k.conditions.find? fun c => name c = s with _ | d <;> rw [hf] at h
  · exact nomatch h
  · obtain rfl := Except.ok.inj h
    exact List.mem_of_find?_eq_some hf

theorem parseMsgRef_mem {s : List Char} {p : C × ArgT}
    (h : parseMsgRef k name s = .ok (some p)) : p.1 ∈ k.conditions := by
  unfold parseMsgRef at h
  rcases hf : findFrom ['.'] s 0 with _ | pos <;> rw [hf] at h
  · exact nomatch h
  rcases hc : getCondIdx k name (String.ofList (substr s 0 pos)) with e | c <;>
    simp only [hc] at h
  · exact nomatch h
  · have hmem := getCondIdx_mem hc
    -- every branch that accepts names `c`
    simp only [bind, Except.bind, pure, Except.pure] at h
    split_ifs at h <;> simp only [Except.ok.injEq, reduceCtorEq, Option.some.injEq] at h <;>
      rw [← h] <;> exact hmem

/-- The conditions a message names are conditions of the rule. -/
theorem init_symbols_mem {s : String} {m : RichMsg C} (h : init k name s = .ok m) :
    ∀ x ∈ m.symbols, x.2.1 ∈ k.conditions := by
  obtain ⟨T, hT, -, rfl⟩ := init_eq_ok_iff.1 h
  clear h
  generalize 0 = ins
  induction T generalizing ins with
  | text t => simp [Template.symbols]
  | ref t r p rest ih =>
    obtain ⟨-, -, hp, hrest⟩ := hT
    intro x hx
    rcases List.mem_cons.1 hx with rfl | hx
    · exact parseMsgRef_mem hp
    · exact ih hrest _ x hx

/-! ## Rendering -/

theorem insertAt_length (done X : List Char) (v : String) :
    insertAt (String.ofList (done ++ X)) done.length v =
      String.ofList (done ++ (v.toList ++ X)) := by
  rw [insertAt, String.toList_ofList, List.take_left, List.drop_left, List.append_assoc]

/-- What stands before the template keeps its place, and so do the insert positions behind it. -/
theorem insertSymbols_render (V : View C) (alarm : Domain) {val : C × ArgT → String}
    (T : Template C) (done : List Char)
    (hval : ∀ p ∈ T.refs, (V.conds p.1).arg (alarm.at (k.conditions.idxOf p.1)) p.2 = .ok (val p)) :
    insertSymbols k V alarm (String.ofList (done ++ T.stripped)) (T.symbols done.length) =
      .ok (String.ofList (done ++ T.render fun p => (val p).toList)) := by
  induction T generalizing done with
  | text t => rfl
  | ref t r p rest ih =>
    have hrest := ih (done ++ t) fun q hq => hval q (List.mem_cons_of_mem p hq)
    have hins := insertAt_length (done ++ t) (rest.render fun p => (val p).toList) (val p)
    rw [List.length_append] at hrest hins
    simp only [Template.stripped, Template.symbols, Template.render, insertSymbols]
    rw [← List.append_assoc done t, ← List.append_assoc done t, hrest, hval p List.mem_cons_self]
    exact congrArg Except.ok hins

/-- The message of an accepted text is the text with each reference replaced by its value. -/
theorem message_of_init {s : String} {m : RichMsg C} (h : init k name s = .ok m) :
    ∃ T : Template C, T.Parsed k name ∧ T.source = s.toList ∧
      (∀ T' : Template C, T'.Parsed k name → T'.source = s.toList → T' = T) ∧
      ∀ (V : View C) (r : Rule C) (alarm : Domain) (val : C × ArgT → String),
        r.getAlarm = .ok alarm →
        (∀ p ∈ T.refs,
          (V.conds p.1).arg (alarm.at (k.conditions.idxOf p.1)) p.2 = .ok (val p)) →
        m.message k V r = .ok (String.ofList (T.render fun p => (val p).toList)) := by
  obtain ⟨T, hT, hs, rfl⟩ := init_eq_ok_iff.1 h
  refine ⟨T, hT, hs, fun T' hT' hs' => T'.source_inj hT' hT (hs'.trans hs.symm),
    fun V r alarm val halarm hval => ?_⟩
  rw [message, halarm]
  exact insertSymbols_render V alarm T [] hval

end RichMsg

end

open Exec Engine in
/-- The source `x` has reported `b`, in a text that looks like a reference itself. -/
def richState : Engine Bool Bool :=
  final (Engine.matchConds namingConfig (lossyMsg "x" "b$\x7bb\x7d") [false, true] {})
    namingConfig.init

/-- Two references with nothing between them, and the end of the text. -/
def richTemplate : Template Bool :=
  .ref [] "b.$m".toList (true, .message)
    (.ref [] "b.$s".toList (true, .source) (.text "!".toList))

theorem richTemplate_parsed :
    richTemplate.Parsed (namingConfig.rule true) fun c => (namingConfig.cond c).name := by
  have hend : ¬opening <:+: "!".toList := by decide +kernel
  exact ⟨by decide, by decide +kernel, by decide +kernel, by decide, by decide +kernel,
    by decide +kernel, hend⟩

theorem richTemplate_source : richTemplate.source = "$\x7bb.$m\x7d$\x7bb.$s\x7d!".toList := by
  decide +kernel

open Exec in
/-- Two references at the start with nothing between them. -/
theorem message_of_init_two : ∃ m,
    RichMsg.init (namingConfig.rule true) (fun c => (namingConfig.cond c).name)
      "$\x7bb.$m\x7d$\x7bb.$s\x7d!" = .ok m ∧
    ∃ rl, Rule.evaluate (namingConfig.rule true) (namingConfig.view richState) 0
        (richState.rules true) = .ok true rl ∧
      m.message (namingConfig.rule true) (namingConfig.view richState) rl =
        .ok "b$\x7bb\x7d__S_GLOBAL__!" := by
  have hinit := RichMsg.init_eq_ok_iff.2 ⟨_, richTemplate_parsed, richTemplate_source, rfl⟩
  obtain ⟨T, hT, hs, huniq, hmessage⟩ := RichMsg.message_of_init hinit
  obtain rfl := huniq _ richTemplate_parsed richTemplate_source
  refine ⟨_, hinit, _, ok_of_value? (by decide +kernel), ?_⟩
  have := hmessage (namingConfig.view richState)
    (final (Rule.evaluate (namingConfig.rule true) (namingConfig.view richState) 0)
      (richState.rules true)) [(0, 0), condDomainCtorNull]
    (fun p => if p.2 = .message then "b$\x7bb\x7d" else "__S_GLOBAL__") (by decide +kernel)
    (by decide +kernel)
  rw [this]
  decide +kernel

end MfExtensions
