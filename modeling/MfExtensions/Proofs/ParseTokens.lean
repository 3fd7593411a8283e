import MfExtensions.RuleTree

/-!
# The tokens of a rule expression

Names, strings, numbers, comparisons and functions are read as they are printed. The keywords are
what a name must not begin with: they are tried as words in front of the text, not against the
whole of a name (`reads_keyOf`, `ensures_keyOf`).
-/

namespace MfExtensions

open Peg Peg.Parser Exec

/-! ## Keywords -/

theorem not_nameStart {c : Char} (h : nameChar c = false) : nameStart c = false := by
  simp only [nameChar, Char.isAlphanum, Bool.or_eq_false_iff] at h
  simp only [nameStart, Bool.or_eq_false_iff]
  exact ⟨h.1.1, h.2⟩

theorem toLower_eq {c : Char} (h : nameStart c = false) : c.toLower = c := by
  unfold Char.toLower
  refine dif_neg fun hup => ?_
  have hupper : c.isUpper = true := decide_eq_true hup
  have hstart : (c.isUpper || c.isLower || c == '_') = false := h
  rw [hupper] at hstart
  cases hstart

/-- The keywords are made of letters. -/
def Letters (w : List Char) : Prop := ∀ c ∈ w.map Char.toLower, nameStart c = true

instance (w : List Char) : Decidable (Letters w) :=
  List.decidableBAll (nameStart · = true) (w.map Char.toLower)

theorem begins_of_append {w more : List Char} (hw : Letters w)
    (hmore : ∀ c ∈ more.head?, nameChar c = false) : ∀ {w' a : List Char}, w' ⊆ w →
      Scanner.begins w' (a ++ more) = true → Scanner.begins w' a = true
  | [], _, _, _ => rfl
  | c :: w', [], hsub, h => by
    cases more with
    | nil => exact h
    | cons d more =>
      have hd := not_nameStart (hmore d rfl)
      simp only [Scanner.begins, List.nil_append, List.map_cons, List.isPrefixOf,
        Bool.and_eq_true, beq_iff_eq, toLower_eq hd] at h
      have hc := hw _ (List.mem_map_of_mem (hsub List.mem_cons_self))
      rw [h.1, hd] at hc
      cases hc
  | c :: w', d :: a, hsub, h => by
    simp only [Scanner.begins, List.cons_append, List.map_cons, List.isPrefixOf,
      Bool.and_eq_true] at h ⊢
    exact ⟨h.1, begins_of_append hw hmore (fun x hx => hsub (List.mem_cons_of_mem _ hx)) h.2⟩

theorem begins_append {w a : List Char} (h : Scanner.begins w a = true) (more : List Char) :
    Scanner.begins w (a ++ more) = true := by
  simp only [Scanner.begins, List.map_append, List.isPrefixOf_iff_prefix] at h ⊢
  exact h.trans (List.prefix_append _ _)

/-- No name starts here. -/
def NoName (cs : List Char) : Prop := ∀ c ∈ next cs, nameStart c = false

theorem fails_noCase {F : List Char → Prop} {w : String}
    (h : ∀ cs, F cs → Scanner.begins w.toList (skip cs) = false) : Fails (noCase w) F :=
  fails_token fun cs hF => by
    show Scanner.noCaseRun _ _ = none
    rw [Scanner.noCaseRun, h cs hF, if_neg (by simp)]

theorem fails_noCase_name {w : String} (hw : Letters w.toList) {n : Name}
    (hn : Scanner.begins w.toList n.str.toList = false) : Fails (noCase w) n.token.At := by
  refine fails_noCase fun cs ⟨more, hskip, hmore⟩ => ?_
  rw [hskip, ← Bool.not_eq_true]
  intro h
  have hbegins : Scanner.begins w.toList n.chars = true :=
    begins_of_append hw hmore (List.Subset.refl _) h
  rw [Name.str, String.toList_ofList, hbegins] at hn
  cases hn

theorem fails_noCase_noName {w : String} (hw : Letters w.toList) (hne : w.toList ≠ []) :
    Fails (noCase w) NoName := by
  refine fails_noCase fun cs hno => ?_
  rw [← Bool.not_eq_true]
  intro h
  obtain ⟨c, w', hcw⟩ := List.exists_cons_of_ne_nil hne
  rw [hcw] at h hw
  cases hcs : skip cs with
  | nil => simp [Scanner.begins, hcs] at h
  | cons d cs' =>
    have hd : nameStart d = false := hno d (by rw [next, hcs]; rfl)
    have hc := hw _ (List.mem_map_of_mem List.mem_cons_self)
    simp only [hcs, Scanner.begins, List.map_cons, List.isPrefixOf, Bool.and_eq_true, beq_iff_eq,
      toLower_eq hd] at h
    rw [h.1, hd] at hc
    cases hc

variable {I : RuleParse → Prop} {F : List Char → Prop}

theorem reads_noCase (w : String) : Reads I (noCase w) F [.word w] fun _ => I := by
  refine (reads_token (v := ()) fun more _ => ?_).mono fun _ _ h => h.2
  show Scanner.noCaseRun w.toList (w.toList ++ more) = _
  have hbegins : Scanner.begins w.toList (w.toList ++ more) = true :=
    begins_append (List.isPrefixOf_iff_prefix.2 List.prefix_rfl) more
  rw [Scanner.noCaseRun, if_pos hbegins, List.drop_left]

/-! ## Names -/

theorem scan_name (n : Name) {more : List Char} (hmore : ∀ c ∈ more.head?, nameChar c = false) :
    (Scanner.name nameStart nameChar).run (n.chars ++ more) = some (n.chars, more) := by
  show Scanner.nameRun nameStart nameChar (n.head :: (n.tail ++ more)) = _
  have htail := List.all_eq_true.1 n.tail_ok
  rw [Scanner.nameRun, if_pos n.head_ok, List.takeWhile_append_of_pos htail,
    List.dropWhile_append_of_pos htail]
  cases more with
  | nil => simp [Name.chars]
  | cons c more =>
    have hc := hmore c rfl
    simp [Name.chars, hc]

/-- A name is a key where no keyword is read. -/
theorem reads_keyOf {keywords : RuleParser Unit} {n : Name} (h : Fails keywords n.token.At) :
    Reads I (do return String.ofList (← diff identifier keywords)) F [n.token]
      fun a s => a = n.str ∧ I s := by
  have hscan : Reads I identifier F [n.token] fun a s => a = n.chars ∧ I s :=
    reads_token fun more hmore => scan_name n hmore
  exact (hscan.diff h fun cs rest hsp _ => hsp.token_at).map fun a s hs => ⟨congrArg _ hs.1, hs.2⟩

theorem fails_keyOf {keywords : RuleParser Unit} (h : Fails keywords NoName) :
    Fails (do return String.ofList (← diff identifier keywords) : RuleParser String) NoName := by
  refine (Fails.diff (fails_token fun cs hno => ?_) h).bind _
  show Scanner.nameRun nameStart nameChar (skip cs) = none
  cases hcs : skip cs with
  | nil => rfl
  | cons c cs' =>
    have hc : nameStart c = false := hno c (by rw [next, hcs]; rfl)
    rw [Scanner.nameRun, hc, if_neg (by simp)]

theorem name_ok {p q : Char → Bool} {cs a rest : List Char}
    (h : (Scanner.name p q).run cs = some (a, rest)) : cs = a ++ rest := by
  have hrun : Scanner.nameRun p q cs = some (a, rest) := h
  cases cs with
  | nil => cases hrun
  | cons c cs =>
    rw [Scanner.nameRun] at hrun
    split at hrun
    · cases hrun
      rw [List.cons_append, List.takeWhile_append_dropWhile]
    · cases hrun

theorem reads_charSt (x : Side) : Reads I charSt F [x.token] fun c s => c = x.char ∧ I s :=
  reads_token fun more _ => if_pos (by cases x <;> rfl)

theorem fails_paren {β : Type} (n : Name) {k : Unit → RuleParser β} :
    Fails (lit "(" >>= k) n.token.At := by
  refine (fails_lit_at fun more _ => ?_).bind k
  have hhead : n.head ≠ '(' := by
    intro h
    have hok := n.head_ok
    rw [h] at hok
    cases hok
  show ['('].isPrefixOf (n.head :: (n.tail ++ more)) = false
  simp [List.isPrefixOf, Ne.symm hhead]

/-- Where the keywords do not match, the text begins with none of the words. -/
def Excludes (words : List String) (keywords : RuleParser Unit) : Prop :=
  ∀ cs s t, keywords.run cs s = .fail t → ∀ w ∈ words, Scanner.begins w.toList (skip cs) = false

theorem excludes_noCase (w : String) : Excludes [w] (noCase w) := by
  intro cs s t h w' hw'
  rw [List.mem_singleton.1 hw', ← Bool.not_eq_true]
  intro hbegins
  have hrun : (noCase w).run cs s = .ok () ((skip cs).drop w.toList.length) s := by
    show tokenRun (.noCase w.toList) cs s = _
    have hscan : (Scanner.noCase w.toList).run (skip cs) =
        some ((), (skip cs).drop w.toList.length) := if_pos hbegins
    rw [tokenRun, hscan]
  rw [hrun] at h
  cases h

theorem Excludes.alt {words words' : List String} {p q : RuleParser Unit} (hp : Excludes words p)
    (hq : Excludes words' q) : Excludes (words ++ words') (p <|> q) := by
  intro cs s t h
  obtain ⟨u, hfail, hfail'⟩ := alt_fail h
  exact List.forall_mem_append.2 ⟨hp cs s u hfail, hq cs u t hfail'⟩

/-- A key begins with no keyword. -/
theorem ensures_keyOf {words : List String} {keywords : RuleParser Unit}
    (hwords : Excludes words keywords) (hI : Ensures I (fun _ => True) keywords) :
    Ensures I (Avoids words) (do return String.ofList (← diff identifier keywords)) := by
  have hdiff : Ensures I (fun a => ∀ w ∈ words, Scanner.begins w.toList a = false)
      (diff identifier keywords) := by
    intro cs s hs
    show (diffRun identifier keywords cs s).Holds I _
    unfold diffRun
    split
    · next t hrun => exact (hI.of_ok hs hrun).2
    · next t hrun =>
      have ht := hI.of_fail hs hrun
      cases hid : identifier.run cs t with
      | ok a rest u =>
        have hu : I u := ((ensures_token _).of_ok ht hid).2
        refine ⟨fun w hw => ?_, hu⟩
        rw [← Bool.not_eq_true]
        intro hbegins
        have hskip := name_ok (tokenRun_ok hid)
        have hcs := hwords cs s t hrun w hw
        rw [hskip, begins_append hbegins rest] at hcs
        cases hcs
      | fail u =>
        show I u
        exact (ensures_token _).of_fail ht hid
      | error e => trivial
    · trivial
  refine hdiff.bind fun a ha => ensures_pure fun w hw => ?_
  rw [String.toList_ofList]
  exact ha w hw

namespace BooleanExprParser

theorem reads_key {n : Name} (hn : Avoids ["AND", "OR"] n.str) :
    Reads I key F [n.token] fun a s => a = n.str ∧ I s :=
  reads_keyOf (.alt (fails_noCase_name (by decide) (hn "AND" (by simp)))
    (fails_noCase_name (by decide) (hn "OR" (by simp))))

theorem ensures_key : Ensures I (Avoids ["AND", "OR"]) key :=
  ensures_keyOf ((excludes_noCase "AND").alt (excludes_noCase "OR"))
    ((ensures_token _).alt (ensures_token _))

end BooleanExprParser

namespace DomainExprParser

theorem reads_key {n : Name} (hn : Avoids ["AND", "OR", "ANY"] n.str) :
    Reads I key F [n.token] fun a s => a = n.str ∧ I s :=
  reads_keyOf (.alt (fails_noCase_name (by decide) (hn "AND" (by simp)))
    (.alt (fails_noCase_name (by decide) (hn "OR" (by simp)))
      (fails_noCase_name (by decide) (hn "ANY" (by simp)))))

theorem fails_key : Fails key NoName :=
  fails_keyOf (.alt (fails_noCase_noName (by decide) (by decide))
    (.alt (fails_noCase_noName (by decide) (by decide))
      (fails_noCase_noName (by decide) (by decide))))

theorem ensures_key : Ensures I (Avoids ["AND", "OR", "ANY"]) key :=
  ensures_keyOf ((excludes_noCase "AND").alt ((excludes_noCase "OR").alt (excludes_noCase "ANY")))
    ((ensures_token _).alt ((ensures_token _).alt (ensures_token _)))

end DomainExprParser

/-! ## Values -/

theorem reads_str (x : StrLit) : Reads I str F [x.token] fun a s => a = x.str ∧ I s := by
  have hscan : Reads I (token (.quoted '\'' strChar) : RuleParser (List Char)) F [x.token]
      fun a s => a = x.chars ∧ I s := by
    refine reads_token fun more _ => ?_
    show Scanner.quotedRun '\'' strChar ('\'' :: (x.chars ++ ['\''] ++ more)) = _
    have hall := List.all_eq_true.1 x.chars_ok
    have hquote : strChar '\'' = false := rfl
    rw [Scanner.quotedRun, List.append_assoc, List.takeWhile_append_of_pos hall,
      List.dropWhile_append_of_pos hall]
    simp only [List.cons_append, List.nil_append, List.takeWhile_cons, List.dropWhile_cons,
      hquote, Bool.false_eq_true, if_false, List.append_nil]
    rw [if_pos]
    · rfl
    · simp [x.ne_nil]
  exact hscan.map fun a s hs => ⟨congrArg _ hs.1, hs.2⟩

theorem fails_str {os : List (Option Char)} (h : some '\'' ∉ os) : Fails str (Followed os) := by
  refine (fails_token fun cs hF => ?_).bind _
  show Scanner.quotedRun '\'' strChar (skip cs) = none
  cases hcs : skip cs with
  | nil => rfl
  | cons c cs' =>
    have hc : c ≠ '\'' := fun hc => h (by rwa [Followed, next, hcs, hc] at hF)
    rw [Scanner.quotedRun, if_neg (by simp [hc])]

theorem reads_bool : ∀ b : Bool, Reads I bool F [(Value.bool b).token] fun a s => a = b ∧ I s
  | true => ((reads_lit rfl).map fun _ _ hs => ⟨rfl, hs⟩).alt_left
  | false =>
    ((reads_lit rfl).map fun _ _ hs => ⟨rfl, hs⟩).alt_right (G := Followed [some 'f'])
      ((fails_lit rfl (by decide)).bind _) fun cs rest hsp _ => hsp.followed rfl (by decide)

theorem fails_bool {os : List (Option Char)} (ht : some 't' ∉ os) (hf : some 'f' ∉ os) :
    Fails bool (Followed os) :=
  .alt ((fails_lit rfl ht).bind _) ((fails_lit rfl hf).bind _)

theorem ensures_str : Ensures I (fun _ => True) str :=
  (ensures_token _).bind fun _ _ => ensures_pure trivial

theorem ensures_bool : Ensures I (fun _ => True) bool :=
  .alt ((ensures_token _).bind fun _ _ => ensures_pure trivial)
    ((ensures_token _).bind fun _ _ => ensures_pure trivial)

variable (D : DoubleParser)

theorem reads_double (x : RealLit) : Reads I (token D.scan : RuleParser Float) F
    [(Value.real x).token] fun a s => a = D.value x ∧ I s :=
  reads_token fun more hmore => D.scan_text x more hmore

theorem fails_double : Fails (token D.scan : RuleParser Float)
    (Followed [some 't', some 'f', some '\'']) := by
  refine fails_token fun cs hF => ?_
  cases hcs : skip cs with
  | nil => simp [Followed, next, hcs] at hF
  | cons c cs' =>
    have hc : c = 't' ∨ c = 'f' ∨ c = '\'' := by simpa [Followed, next, hcs] using hF
    rcases hc with rfl | rfl | rfl
    · exact D.scan_none _ _ rfl (by decide)
    · exact D.scan_none _ _ rfl (by decide)
    · exact D.scan_none _ _ rfl (by decide)

/-- A value is read as a number, a boolean or a string, whatever is then done with it. -/
theorem reads_value {β : Type} {x : Value} {kd : Float → RuleParser β} {kb : Bool → RuleParser β}
    {ks : String → RuleParser β} {Q : β → RuleParse → Prop}
    (hd : ∀ y, x = .real y → Reads I (kd (D.value y)) F [] Q)
    (hb : ∀ b, x = .bool b → Reads I (kb b) F [] Q)
    (hs : ∀ y, x = .str y → Reads I (ks y.str) F [] Q) :
    Reads I ((do kd (← token D.scan)) <|> (do kb (← bool)) <|> (do ks (← str))) F [x.token] Q := by
  have htrue : ∀ cs rest : List Char, Spells [] cs rest → F rest → True := fun _ _ _ _ => trivial
  rw [← List.append_nil [x.token]]
  cases x with
  | real y => exact ((reads_double D y).bind_eq (hd y rfl) htrue).alt_left
  | bool b =>
    refine ((reads_bool b).bind_eq (hb b rfl) htrue).alt_left.alt_right ((fails_double D).bind _) ?_
    intro cs rest hsp _
    cases b <;> exact hsp.followed rfl (by decide)
  | str y =>
    have hread := ((reads_str y).bind_eq (hs y rfl) htrue).alt_right (G := Followed [some '\''])
      ((fails_bool (by decide) (by decide)).bind kb) fun cs rest hsp _ =>
        hsp.followed rfl (by decide)
    exact hread.alt_right ((fails_double D).bind _) fun cs rest hsp _ =>
      hsp.followed rfl (by decide)

namespace BooleanExprParser

theorem reads_arg (x : Value) : Reads I (arg D) F [x.token] fun a s => a = x.any D ∧ I s :=
  reads_value D (fun _ h => h ▸ reads_pure _) (fun _ h => h ▸ reads_pure _)
    fun _ h => h ▸ reads_pure _

theorem not_isPrefixOf_eq {c : Char} {more : List Char}
    (h : ∀ d ∈ more.head?, (d == '=') = false) : [c, '='].isPrefixOf (c :: more) = false := by
  cases more with
  | nil => simp
  | cons d more =>
    have hd : d ≠ '=' := by simpa using h d rfl
    simp [List.isPrefixOf, Ne.symm hd]

theorem reads_compareOp (op : CompareOp) :
    Reads I compareOp F [op.token] fun a s => a = op ∧ I s := by
  have hit : ∀ {w : String}, op.token.text = w.toList →
      Reads I (do lit w; return op : RuleParser CompareOp) F [op.token] fun a s => a = op ∧ I s :=
    fun hw => (reads_lit hw).map fun _ _ hs => ⟨rfl, hs⟩
  -- the words before the one that is there
  have miss : ∀ {w : String} {o : CompareOp} {q : RuleParser CompareOp},
      (∀ more : List Char, (∀ c ∈ more.head?, op.token.runsOn c = false) →
        w.toList.isPrefixOf (op.token.text ++ more) = false) →
      Reads I q F [op.token] (fun a s => a = op ∧ I s) →
      Reads I ((do lit w; return o) <|> q) F [op.token] fun a s => a = op ∧ I s :=
    fun hw hq => hq.alt_right ((fails_lit_at hw).bind _) fun _ _ hsp _ => hsp.token_at
  cases op with
  | e => exact (hit rfl).alt_left
  | ne => exact miss (fun _ _ => rfl) (hit rfl).alt_left
  | le => exact miss (fun _ _ => rfl) (miss (fun _ _ => rfl) (hit rfl).alt_left)
  | ge =>
    exact miss (fun _ _ => rfl) (miss (fun _ _ => rfl) (miss (fun _ _ => rfl) (hit rfl).alt_left))
  | l =>
    refine miss (fun _ _ => rfl) (miss (fun _ _ => rfl) (miss (fun _ h => ?_)
      (miss (fun _ _ => rfl) (hit rfl).alt_left)))
    exact not_isPrefixOf_eq h
  | g =>
    refine miss (fun _ _ => rfl) (miss (fun _ _ => rfl) (miss (fun _ _ => rfl)
      (miss (fun _ h => ?_) (miss (fun _ _ => rfl) (hit rfl)))))
    exact not_isPrefixOf_eq h

theorem reads_comparison {op : CompareOp} {x : Value}
    (hop : ∀ b, x = .bool b → op = .e ∨ op = .ne) :
    Reads I (comparison D) F [op.token, x.token] fun r s => r = x.rhv D op ∧ I s := by
  show Reads I (comparison D) F ([op.token] ++ [x.token]) _
  refine (reads_compareOp op).bind_eq (reads_value D (fun _ h => h ▸ reads_pure _) (fun b h => ?_)
    fun _ h => h ▸ reads_pure _) (G := fun _ => True) fun _ _ _ _ => trivial
  refine reads_effect fun s hs => ⟨x.rhv D op, s, ?_, rfl, hs⟩
  rw [h]
  rcases hop b h with rfl | rfl <;> rfl

end BooleanExprParser

end MfExtensions
