import MfExtensions.Proofs.Cell
import MfExtensions.Proofs.Condition
import MfExtensions.Proofs.Locality

/-!
# Conditions that cannot be told apart

Two conditions are twins if their maps and cells agree on what a rule or a later message reads. What
may differ is left over from earlier messages: the temporaries, the last message of a condition no
`is_syncd` reads, the groups of cells no alarm message reads, and the extents of the array. Matching
a message keeps twins twins, with the same outcome (`matchMsg_twin`): a message that gets as far as
the temporaries being read has written them.
-/

namespace MfExtensions

open Exec

/-! ## Hitmaps -/

namespace Hitmap

/-- The cell is in the array. -/
def Inside (h : Hitmap) (s t : ℕ) : Prop := s < h.srcCap ∧ t < h.tgtCap

/-- Every index is in the array, and no cell outside it has been built. -/
structure Built (h : Hitmap) : Prop where
  wf : h.WF
  srcSize : h.srcIdx.size ≤ h.srcCap
  tgtSize : h.tgtIdx.size ≤ h.tgtCap
  outside : ∀ s t, ¬h.Inside s t → h.cells s t = {}

theorem built_init : Built {} :=
  ⟨⟨IdxMap.numbered_empty, IdxMap.numbered_empty⟩, Nat.zero_le _, Nat.zero_le _, fun _ _ _ => rfl⟩

theorem Built.reset {h : Hitmap} (hb : h.Built) : h.reset.Built := by
  refine ⟨⟨IdxMap.numbered_empty, IdxMap.numbered_empty⟩, Nat.zero_le _, Nat.zero_le _,
    fun s t hout => ?_⟩
  have hout : ¬(s < h.srcCap ∧ t < h.tgtCap) := hout
  simp only [Hitmap.reset, if_neg hout]
  exact hb.outside s t hout

theorem Built.setCell {h : Hitmap} (hb : h.Built) {s t : ℕ} (hin : h.Inside s t) (x : Cell) :
    (h.setCell s t x).Built := by
  refine ⟨⟨hb.wf.src, hb.wf.tgt⟩, hb.srcSize, hb.tgtSize, fun s' t' hout => ?_⟩
  have hne : ¬(s' = s ∧ t' = t) := by
    rintro ⟨rfl, rfl⟩
    exact hout hin
  simp only [Hitmap.setCell, if_neg hne]
  exact hb.outside s' t' hout

/-- An index given out is the next one or one there was. -/
theorem findIndex_index {idx : IdxMap} (hm : idx.Numbered) (per : Bool) (glob name : String) :
    (findIndex per glob idx name).2.1 ≤ idx.size ∧
      (findIndex per glob idx name).1.size ≤
        max idx.size ((findIndex per glob idx name).2.1 + 1) := by
  unfold findIndex
  cases per with
  | false =>
    simp only [Bool.not_false, if_true]
    split_ifs with hemp
    · rw [OrdMap.isEmpty_iff] at hemp
      subst hemp
      exact ⟨Nat.le_refl _, Nat.le_refl _⟩
    · exact ⟨Nat.zero_le _, le_max_left _ _⟩
  | true =>
    simp only [Bool.not_true, Bool.false_eq_true, if_false]
    rcases hf : idx.find? name with _ | i
    · simp only [OrdMap.size_insert hf]
      exact ⟨Nat.le_refl _, le_max_right _ _⟩
    · have hlt := hm.lt _ (OrdMap.find?_eq_some_iff.1 hf)
      exact ⟨hlt.le, le_max_left _ _⟩

/-- The extent that index `i` needs. -/
def room (cap i : ℕ) : ℕ := if i ≥ cap then cap + capIncrement else cap

theorem le_room (cap i : ℕ) : cap ≤ room cap i := by
  unfold room
  split_ifs <;> omega

theorem lt_room {cap i : ℕ} (h : i ≤ cap) : i < room cap i := by
  simp only [room, capIncrement]
  split_ifs <;> omega

/-- Making room for a message moves no cell. -/
theorem Built.locate_eq {h : Hitmap} (hb : h.Built) (k : CondConfig) (src tgt : String) :
    h.locate k src tgt =
      ({ srcIdx := (findIndex k.perSource globalS h.srcIdx src).1
         tgtIdx := (findIndex k.perTarget globalT h.tgtIdx tgt).1
         srcCap := room h.srcCap (findIndex k.perSource globalS h.srcIdx src).2.1
         tgtCap := room h.tgtCap (findIndex k.perTarget globalT h.tgtIdx tgt).2.1
         cells := h.cells },
        (findIndex k.perSource globalS h.srcIdx src).2,
        (findIndex k.perTarget globalT h.tgtIdx tgt).2) := by
  have hcells : (fun s t => if s < h.srcCap ∧ t < h.tgtCap then h.cells s t else {}) =
      h.cells := by
    funext s t
    split_ifs with hin
    · rfl
    · exact (hb.outside s t hin).symm
  simp only [Hitmap.locate, room]
  generalize findIndex k.perSource globalS h.srcIdx src = fs
  generalize findIndex k.perTarget globalT h.tgtIdx tgt = ft
  by_cases hs : fs.2.1 ≥ h.srcCap
  · rw [if_pos (.inl hs)]
    simp only [if_pos hs, resize, hcells]
  · by_cases ht : ft.2.1 ≥ h.tgtCap
    · rw [if_pos (.inr ht)]
      simp only [if_neg hs, if_pos ht, resize, hcells]
    · rw [if_neg (not_or.2 ⟨hs, ht⟩)]
      simp only [if_neg hs, if_neg ht]

theorem Built.locate {h : Hitmap} (hb : h.Built) (k : CondConfig) (src tgt : String) :
    (h.locate k src tgt).1.Built ∧
      (h.locate k src tgt).1.Inside (h.locate k src tgt).2.1.1 (h.locate k src tgt).2.2.1 ∧
      ∀ s t, h.Inside s t → (h.locate k src tgt).1.Inside s t := by
  rw [hb.locate_eq]
  obtain ⟨hs, hsize⟩ := findIndex_index hb.wf.src k.perSource globalS src
  obtain ⟨ht, htsize⟩ := findIndex_index hb.wf.tgt k.perTarget globalT tgt
  have hsin := lt_room (hs.trans hb.srcSize)
  have htin := lt_room (ht.trans hb.tgtSize)
  have hgrow : ∀ s t, h.Inside s t → s < room h.srcCap
      (findIndex k.perSource globalS h.srcIdx src).2.1 ∧ t < room h.tgtCap
      (findIndex k.perTarget globalT h.tgtIdx tgt).2.1 :=
    fun s t hin => ⟨hin.1.trans_le (le_room _ _), hin.2.trans_le (le_room _ _)⟩
  refine ⟨⟨⟨findIndex_numbered hb.wf.src _ _ _, findIndex_numbered hb.wf.tgt _ _ _⟩, ?_, ?_,
    fun s t hout => hb.outside s t fun hin => hout (hgrow s t hin)⟩, ⟨hsin, htin⟩, hgrow⟩
  · exact hsize.trans (max_le (hb.srcSize.trans (le_room _ _)) hsin)
  · exact htsize.trans (max_le (hb.tgtSize.trans (le_room _ _)) htin)

end Hitmap

/-! ## Cells -/

/-- What an event due at a cell makes of its status. -/
def CondConfig.eventStatus (k : CondConfig) : Bool := if !k.atLeast then true else k.persistent

namespace Cell

variable {k : CondConfig} {x y : Cell}

theorem event_eq (τ : ℤ) : x.event k τ =
    if τ = x.tEvent then ({ x with on := k.eventStatus }, k.eventStatus != x.on)
    else (x, false) := by
  unfold Cell.event
  by_cases hτ : τ = x.tEvent
  · simp only [hτ, ne_eq, not_true_eq_false, if_false, if_true]
    show (if k.eventStatus = x.on then (x, false) else ({ x with on := k.eventStatus }, true)) = _
    by_cases hon : k.eventStatus = x.on
    · rw [if_pos hon, hon, bne_self_eq_false]
    · rw [if_neg hon, bne_iff_ne.2 hon]
  · simp [hτ]

/-- An event of time `τ` that would change nothing, now or after a reset. -/
structure Inert (k : CondConfig) (τ : ℤ) (x : Cell) : Prop where
  ground : τ = 0 → k.eventStatus = false
  now : τ = x.tEvent → k.eventStatus = false ∧ x.on = false

/-- A hit does not read the groups of the last one. -/
theorem hit_congr (msg : Msg) (w : Smatch) (hon : y.on = x.on) (hmsgs : y.msgs = x.msgs)
    (ht : y.tEvent = x.tEvent) : hit k msg w y = hit k msg w x := by
  obtain ⟨msgs, on, what, tEvent⟩ := x
  obtain ⟨msgs', on', what', tEvent'⟩ := y
  simp only at hon hmsgs ht
  subst hon hmsgs ht
  rfl

/-- A hit leaves an event without effect so, unless it schedules it anew. -/
theorem Inert.hit {τ : ℤ} (h : Inert k τ x) {msg : Msg} {w : Smatch} {te : Option ℤ}
    {flipped : Bool} (hit : Cell.hit k msg w x = some (y, te, flipped)) (hte : te ≠ some τ) :
    Inert k τ y := by
  refine ⟨h.ground, fun hτ => ?_⟩
  rcases hit_event hit with hsome | ⟨ht, hon⟩
  · exact absurd (hτ ▸ hsome) hte
  · obtain ⟨hk, hoff⟩ := h.now (hτ.trans ht)
    exact ⟨hk, hon.elim (fun hon => hon.trans hoff) id⟩

theorem Inert.reset {τ : ℤ} (h : Inert k τ x) : Inert k τ x.reset :=
  ⟨h.ground, fun hτ => ⟨h.ground hτ, rfl⟩⟩

end Cell

namespace Hitmap

/-- Hitmaps that agree on what a rule or a later message reads; `group` is whether an alarm message
reads the groups of a cell. -/
structure Twin (group : Prop) (h h' : Hitmap) : Prop extends h.Alike h' where
  what : group → ∀ s t, (h'.cells s t).what = (h.cells s t).what
  tEvent : ∀ s t, (h'.cells s t).tEvent = (h.cells s t).tEvent

variable {group : Prop} {h h' : Hitmap}

theorem Twin.setCell (hh : h.Twin group h') (s t : ℕ) (x : Cell) :
    (h.setCell s t x).Twin group (h'.setCell s t x) := by
  have hcell : ∀ {β : Type} (f : Cell → β), (∀ s t, f (h'.cells s t) = f (h.cells s t)) →
      ∀ s' t', f ((h'.setCell s t x).cells s' t') = f ((h.setCell s t x).cells s' t') := by
    intro β f hf s' t'
    simp only [Hitmap.setCell]
    split_ifs
    · rfl
    · exact hf s' t'
  exact ⟨⟨hh.srcIdx, hh.tgtIdx, hcell Cell.on hh.on, hcell Cell.msgs hh.msgs⟩,
    fun hg => hcell Cell.what (hh.what hg), hcell Cell.tEvent hh.tEvent⟩

/-- A message is captured alike by twins. -/
theorem capture_twin (hb : h.Built) (hb' : h'.Built) (hh : h.Twin group h') (k : CondConfig)
    (msg : Msg) (src tgt : String) (what : Smatch) :
    capture k msg src tgt what h = none ∧ capture k msg src tgt what h' = none ∨
    ∃ g g' change te, capture k msg src tgt what h = some (g, change, te) ∧
      capture k msg src tgt what h' = some (g', change, te) ∧ g.Built ∧ g'.Built ∧
      g.Twin group g' ∧
      (∀ s t, h.Inside s t → g.Inside s t) ∧ (∀ s t, h'.Inside s t → g'.Inside s t) ∧
      (∀ ev ∈ te, g.Inside ev.2.1 ev.2.2 ∧ g'.Inside ev.2.1 ev.2.2) ∧
      ∀ τ s t, (h'.cells s t).Inert k τ → te ≠ some (τ, s, t) → (g'.cells s t).Inert k τ := by
  obtain ⟨hl, hin, hgrow⟩ := hb.locate k src tgt
  obtain ⟨hl', hin', hgrow'⟩ := hb'.locate k src tgt
  have hlt : (h.locate k src tgt).1.Twin group (h'.locate k src tgt).1 := by
    rw [hb.locate_eq, hb'.locate_eq, hh.srcIdx, hh.tgtIdx]
    exact ⟨⟨rfl, rfl, hh.on, hh.msgs⟩, hh.what, hh.tEvent⟩
  have hidx : (h'.locate k src tgt).2 = (h.locate k src tgt).2 := by
    rw [hb.locate_eq, hb'.locate_eq, hh.srcIdx, hh.tgtIdx]
  have hcells' : (h'.locate k src tgt).1.cells = h'.cells := by rw [hb'.locate_eq]
  unfold capture
  generalize h.locate k src tgt = r at *
  generalize h'.locate k src tgt = r' at *
  obtain ⟨l, ⟨s, sNew⟩, t, tNew⟩ := r
  obtain ⟨l', ⟨s', sNew'⟩, t', tNew'⟩ := r'
  simp only [Prod.mk.injEq] at hidx hl hin hgrow hl' hin' hgrow' hlt hcells' ⊢
  obtain ⟨⟨rfl, rfl⟩, rfl, rfl⟩ := hidx
  have hhit : (l'.cells s' t').hit k msg what = (l.cells s' t').hit k msg what :=
    Cell.hit_congr msg what (hlt.on s' t') (hlt.msgs s' t') (hlt.tEvent s' t')
  rw [hhit]
  rcases hx : (l.cells s' t').hit k msg what with _ | ⟨x, te, flipped⟩
  · exact .inl ⟨rfl, rfl⟩
  · refine .inr ⟨_, _, _, _, rfl, rfl, hl.setCell hin x, hl'.setCell hin' x, hlt.setCell s' t' x,
      hgrow, hgrow', fun ev hev => ?_, fun τ i j hτ hte => ?_⟩
    · obtain ⟨te, rfl, rfl⟩ := Option.map_eq_some_iff.1 hev
      exact ⟨hin, hin'⟩
    · simp only [Hitmap.setCell, hcells']
      split_ifs with heq
      · obtain ⟨rfl, rfl⟩ := heq
        rw [← hcells'] at hτ
        refine hτ.hit (hhit.trans hx) fun h => hte ?_
        rw [h]
        rfl
      · exact hτ

end Hitmap

/-! ## Conditions -/

namespace Condition

/-- A temporary that no message writes is as it was built. -/
structure Sound (k : CondConfig) (c : Condition) : Prop where
  built : c.hitmap.Built
  tgt : k.matchAny = true ∨ k.perTarget = false → c.tgt = ""
  what : k.anySrc = true → k.anyCat = true → k.matchAny = true → c.what = {}

theorem sound_init (k : CondConfig) : Sound k {} :=
  ⟨Hitmap.built_init, fun _ => rfl, fun _ _ _ => rfl⟩

/-- No match points into the strings of the condition: neither that of the last message, which an
`is_syncd` reads, nor those of the cells, which an alarm message reads. -/
structure Blank (sync group : Prop) (c : Condition) : Prop where
  last : sync → c.lastWhat = {}
  what : group → ∀ s t, (c.hitmap.cells s t).what = {}

/-- Conditions that agree on what a rule or a later message reads; `sync` is whether an `is_syncd`
reads the last message, `group` whether an alarm message reads the groups of a cell. -/
structure Twin (k : CondConfig) (sync group : Prop) (c c' : Condition) : Prop where
  sound : c.Sound k
  sound' : c'.Sound k
  hitmap : c.hitmap.Twin group c'.hitmap
  texts : c'.texts = c.texts ∨ c.Blank sync group
  lastSrc : sync → c'.lastSrc = c.lastSrc
  lastTgt : sync → c'.lastTgt = c.lastTgt
  lastWhat : sync → c'.lastWhat = c.lastWhat

variable {k : CondConfig} {sync group : Prop} {c c' : Condition}

theorem sub_congr {w : Smatch} {x x' : Texts} (h : x' = x ∨ w = {}) (i : ℕ) :
    w.sub x' i = w.sub x i := by
  rcases h with rfl | rfl <;> rfl

/-- Twins have the same groups of the last message. -/
theorem Twin.msgGroup (h : Twin k sync group c c') (hs : sync) (i : ℕ) :
    c'.msgGroup i = c.msgGroup i := by
  simp only [Condition.msgGroup, h.lastWhat hs]
  rw [sub_congr (h.texts.imp_right fun hb => hb.last hs)]

/-- Twins have the same groups of their cells. -/
theorem Twin.arg_group (h : Twin k sync group c c') (hg : group) (v : CondDomain) (n : ℕ) :
    c'.arg v (.group n) = c.arg v (.group n) := by
  refine h.hitmap.toAlike.messageGroup (fun s t => ?_) v
  simp only [Cell.messageGroup, h.hitmap.what hg]
  rw [sub_congr (h.texts.imp_right fun hb => hb.what hg s t)]

/-- Twins that have been fed the same message. -/
structure Fed (k : CondConfig) (sync group : Prop) (c c' : Condition) : Prop
    extends Twin k sync group c c' where
  fed : c'.texts = c.texts

theorem Twin.fed (h : Twin k sync group c c') (msg : Msg) :
    Fed k sync group (c.fed msg) (c'.fed msg) :=
  ⟨⟨⟨h.sound.built, h.sound.tgt, h.sound.what⟩, ⟨h.sound'.built, h.sound'.tgt, h.sound'.what⟩,
    h.hitmap, .inl rfl, h.lastSrc, h.lastTgt, h.lastWhat⟩, rfl⟩

theorem Fed.setWhat (h : Fed k sync group c c')
    (hk : ¬(k.anySrc = true ∧ k.anyCat = true ∧ k.matchAny = true)) (w : Smatch) :
    Fed k sync group { c with what := w } { c' with what := w } :=
  ⟨⟨⟨h.sound.built, h.sound.tgt, fun h₁ h₂ h₃ => absurd ⟨h₁, h₂, h₃⟩ hk⟩,
    ⟨h.sound'.built, h.sound'.tgt, fun h₁ h₂ h₃ => absurd ⟨h₁, h₂, h₃⟩ hk⟩, h.hitmap, .inl h.fed,
    h.lastSrc, h.lastTgt, h.lastWhat⟩, h.fed⟩

theorem Fed.setTgt (h : Fed k sync group c c')
    (hk : ¬(k.matchAny = true ∨ k.perTarget = false)) (tgt : String) :
    Fed k sync group { c with tgt } { c' with tgt } :=
  ⟨⟨⟨h.sound.built, fun h => absurd h hk, h.sound.what⟩,
    ⟨h.sound'.built, fun h => absurd h hk, h.sound'.what⟩, h.hitmap, .inl h.fed, h.lastSrc,
    h.lastTgt, h.lastWhat⟩, h.fed⟩

/-- A test function reads the groups of the last message. -/
theorem testFunc_congr (L : LexicalCast) (h : c'.msgGroup = c.msgGroup) :
    ∀ f : TestFunc, f.evaluate L c' = f.evaluate L c
  | .grpToNumber group => by simp only [TestFunc.evaluate, h]

mutual

theorem test_congr (L : LexicalCast) (h : c'.msgGroup = c.msgGroup) :
    ∀ p : TestPrimary, p.evaluate L c' = p.evaluate L c
  | .expr e => by simp only [TestPrimary.evaluate, testOr_congr L h e]
  | .func f rhv => by simp only [TestPrimary.evaluate, testFunc_congr L h f]

theorem testAnd_congr (L : LexicalCast) (h : c'.msgGroup = c.msgGroup) :
    ∀ ps : List TestPrimary, TestPrimary.evaluateAnd L c' ps = TestPrimary.evaluateAnd L c ps
  | [] => rfl
  | p :: ps => by
    simp only [TestPrimary.evaluateAnd, test_congr L h p, testAnd_congr L h ps]

theorem testOr_congr (L : LexicalCast) (h : c'.msgGroup = c.msgGroup) :
    ∀ e : List (List TestPrimary), TestPrimary.evaluateOr L c' e = TestPrimary.evaluateOr L c e
  | [] => rfl
  | a :: as => by
    simp only [TestPrimary.evaluateOr, testAnd_congr L h a, testOr_congr L h as]

end

/-- A regular expression that is not `*` leaves the same match in twins, if it matches. -/
theorem sim_matchAny {any : Bool} {es : List Regex} {buffer : Buffer} {s : String} {p : Prop}
    (hany : any = false → ¬(k.anySrc = true ∧ k.anyCat = true ∧ k.matchAny = true)) :
    Sim (fun c c' => Fed k sync group c c' ∧ (p → c'.what = c.what))
      (fun b c c' => Fed k sync group c c' ∧ (b = true → p ∨ any = false → c'.what = c.what))
      (Twin k sync group) (matchAny any es buffer s) (matchAny any es buffer s) := by
  unfold matchAny
  cases any with
  | true => exact sim_pure fun c c' h => ⟨h.1, fun _ hp => hp.elim h.2 (by simp)⟩
  | false =>
    simp only [Bool.false_eq_true, if_false]
    cases es.findSome? fun e => e.regexMatch s with
    | none => exact sim_pure fun c c' h => ⟨h.1, by simp⟩
    | some w =>
      refine sim_bind (Q := fun _ c c' => Fed k sync group c c' ∧ c'.what = c.what)
        (sim_modify fun c c' h => ⟨h.1.setWhat (hany rfl) _, rfl⟩) fun _ => ?_
      exact sim_pure fun c c' h => ⟨h.1, fun _ _ => h.2⟩

theorem sim_matchBody {bdy : String} {p : Prop} :
    Sim (fun c c' => Fed k sync group c c' ∧ (p → c'.what = c.what))
      (fun b c c' => Fed k sync group c c' ∧
        (b = true → (p ∨ k.matchAny = false → c'.what = c.what) ∧ c'.tgt = c.tgt))
      (Twin k sync group) (matchBody k bdy) (matchBody k bdy) := by
  have htgt : ∀ {c c' : Condition}, Fed k sync group c c' →
      k.matchAny = true ∨ k.perTarget = false → c'.tgt = c.tgt := fun h hk => by
    rw [h.sound.tgt hk, h.sound'.tgt hk]
  unfold matchBody
  cases hm : k.matchAny with
  | true =>
    exact sim_pure fun c c' h => ⟨h.1, fun _ => ⟨fun hp => hp.elim h.2 (by simp),
      htgt h.1 (.inl hm)⟩⟩
  | false =>
    simp only [Bool.false_eq_true, if_false]
    cases k.e.regexSearch bdy with
    | none => exact sim_pure fun c c' h => ⟨h.1, by simp⟩
    | some subs =>
      have hwhat : Sim (fun c c' => Fed k sync group c c' ∧ (p → c'.what = c.what))
          (fun _ c c' => Fed k sync group c c' ∧ c'.what = c.what) (Twin k sync group)
          (modify fun c => { c with what := { subs } } : EStateM Err Condition PUnit)
          (modify fun c => { c with what := { subs } }) :=
        sim_modify fun c c' h => ⟨h.1.setWhat (by simp [hm]) _, rfl⟩
      refine sim_bind hwhat fun _ => ?_
      cases ht : k.perTarget with
      | false =>
        exact sim_pure fun c c' h => ⟨h.1, fun _ => ⟨fun _ => h.2, htgt h.1 (.inr ht)⟩⟩
      | true =>
        have hset : Sim (fun c c' => Fed k sync group c c' ∧ c'.what = c.what)
            (fun _ c c' => Fed k sync group c c' ∧ c'.what = c.what ∧ c'.tgt = c.tgt)
            (Twin k sync group) (do
              let tgt ← orThrow (Smatch.sub { bdy } { subs } k.targetGroup)
              modify fun c => { c with tgt }
              return true : EStateM Err Condition Bool) (do
              let tgt ← orThrow (Smatch.sub { bdy } { subs } k.targetGroup)
              modify fun c => { c with tgt }
              return true) := by
          refine sim_bind (sim_orThrow _ (fun _ c c' h => h) fun c c' h => h.1.toTwin) fun tgt => ?_
          refine sim_bind (Q := fun _ c c' => Fed k sync group c c' ∧ c'.what = c.what ∧
            c'.tgt = c.tgt) (sim_modify fun c c' h => ⟨h.1.setTgt (by simp [hm, ht]) tgt, h.2, rfl⟩)
            fun _ => ?_
          exact sim_pure fun c c' h => h
        simp only [if_true]
        split_ifs
        · exact sim_bind (Q := fun _ _ _ => False) (sim_throw fun c c' h => h.1.toTwin)
            fun _ => fun _ _ h => h.elim
        · exact hset.mono (fun _ _ h => h) fun _ _ _ h => ⟨h.1, fun _ => ⟨fun _ => h.2.1, h.2.2⟩⟩

theorem sim_updateFields (app : String) :
    Sim (fun c c' => Fed k sync group c c' ∧ c'.what = c.what ∧ c'.tgt = c.tgt)
      (fun _ c c' => Fed k sync group c c' ∧ c'.what = c.what ∧ c'.tgt = c.tgt ∧
        c'.lastWhat = c.lastWhat) (Twin k sync group) (updateFields app) (updateFields app) := by
  refine sim_modify fun c c' h => ?_
  obtain ⟨h, hw, ht⟩ := h
  exact ⟨⟨⟨⟨h.sound.built, h.sound.tgt, h.sound.what⟩, ⟨h.sound'.built, h.sound'.tgt,
    h.sound'.what⟩, h.hitmap, .inl h.fed, fun _ => rfl, fun _ => ht, fun _ => hw⟩, h.fed⟩, hw, ht,
    hw⟩

/-- Whether a message is to be captured does not depend on what twins may differ in, and if it is
they agree on where. -/
theorem sim_passes (L : LexicalCast) (msg : Msg) :
    Sim (Fed k sync group)
      (fun b c c' => Fed k sync group c c' ∧ (b = true → c'.what = c.what ∧ c'.tgt = c.tgt))
      (Twin k sync group) (passes L k msg) (passes L k msg) := by
  have hret : ∀ {P : Condition → Condition → Prop}, (∀ c c', P c c' → Fed k sync group c c') →
      Sim P (fun b c c' => Fed k sync group c c' ∧
        (b = true → c'.what = c.what ∧ c'.tgt = c.tgt)) (Twin k sync group)
        (pure false : EStateM Err Condition Bool) (pure false) :=
    fun hP => sim_pure fun c c' h => ⟨hP c c' h, by simp⟩
  unfold passes
  split_ifs
  · exact hret fun _ _ h => h
  refine sim_bind ((sim_matchAny (p := False) ?_).mono (fun c c' h => ⟨h, False.elim⟩)
    fun _ _ _ h => h) fun b => ?_
  · exact fun h hk => by simp [h] at hk
  cases b with
  | false => exact hret fun _ _ h => h.1
  | true =>
    refine sim_bind ((sim_matchAny (p := False ∨ k.anySrc = false) ?_).mono
      (fun c c' h => ⟨h.1, h.2 rfl⟩) fun _ _ _ h => h) fun b => ?_
    · exact fun h hk => by simp [h] at hk
    cases b with
    | false => exact hret fun _ _ h => h.1
    | true =>
      refine sim_bind ((sim_matchBody (p := (False ∨ k.anySrc = false) ∨ k.anyCat = false)).mono
        (fun c c' h => ⟨h.1, h.2 rfl⟩) fun _ _ _ h => h) fun b => ?_
      cases b with
      | false => exact hret fun _ _ h => h.1
      | true =>
        refine sim_bind ((sim_updateFields msg.app).mono (fun c c' h => ?_) fun _ _ _ h => h)
          fun _ => ?_
        · obtain ⟨hw, ht⟩ := h.2 rfl
          refine ⟨h.1, ?_, ht⟩
          by_cases hk : k.anySrc = true ∧ k.anyCat = true ∧ k.matchAny = true
          · rw [h.1.sound.what hk.1 hk.2.1 hk.2.2, h.1.sound'.what hk.1 hk.2.1 hk.2.2]
          · refine hw ?_
            simp only [not_and_or, Bool.not_eq_true] at hk
            tauto
        · refine sim_get_bind fun c c' ⟨h, hw, ht, hlast⟩ => ?_
          have hgroup : c'.msgGroup = c.msgGroup := by
            funext i
            simp only [msgGroup, hlast, h.fed]
          rw [test_congr L hgroup]
          exact sim_orThrow (P := fun c c' => Fed k sync group c c' ∧ c'.what = c.what ∧
            c'.tgt = c.tgt) _ (fun _ _ _ h => ⟨h.1, fun _ => h.2⟩) (fun _ _ h => h.1.toTwin) c c'
            ⟨h, hw, ht⟩

/-- A message does the same to twins: it is rejected by both, throws in both or is captured by both,
with the same changes and the same event. -/
theorem matchMsg_twin (L : LexicalCast) (msg : Msg) (h : Twin k sync group c c') :
    (∃ d d', Twin k sync group d d' ∧ c.Kept d ∧ c'.Kept d' ∧
      (matchMsg L k msg c = .ok none d ∧ matchMsg L k msg c' = .ok none d' ∨
        ∃ err, matchMsg L k msg c = .error err d ∧ matchMsg L k msg c' = .error err d')) ∨
    ∃ d d' change te, Twin k sync group d d' ∧
      matchMsg L k msg c = .ok (some (change, te)) d ∧
      matchMsg L k msg c' = .ok (some (change, te)) d' ∧
      (∀ s t, c.hitmap.Inside s t → d.hitmap.Inside s t) ∧
      (∀ s t, c'.hitmap.Inside s t → d'.hitmap.Inside s t) ∧
      (∀ ev ∈ te, d.hitmap.Inside ev.2.1 ev.2.2 ∧ d'.hitmap.Inside ev.2.1 ev.2.2) ∧
      ∀ τ s t, (c'.hitmap.cells s t).Inert k τ → te ≠ some (τ, s, t) →
        (d'.hitmap.cells s t).Inert k τ := by
  have hp := sim_passes L msg (c.fed msg) (c'.fed msg) (h.fed msg)
  simp only [matchMsg_eq, bind_apply, extractFields_apply]
  rcases hx : passes L k msg (c.fed msg) with ⟨b, d⟩ | ⟨err, d⟩ <;>
    rcases hy : passes L k msg (c'.fed msg) with ⟨b', d'⟩ | ⟨err', d'⟩ <;> rw [hx, hy] at hp
  · obtain ⟨rfl, ht, hpass⟩ := hp
    have hkept := (kept_passes L k msg).of_ok hx
    have hkept' := (kept_passes L k msg).of_ok hy
    change Kept c d at hkept
    change Kept c' d' at hkept'
    cases b with
    | false => exact .inl ⟨d, d', ht.toTwin, hkept, hkept', .inl ⟨rfl, rfl⟩⟩
    | true =>
      obtain ⟨hw, htgt⟩ := hpass rfl
      simp only [if_true, bind_apply, capture_apply, hw, htgt]
      rcases Hitmap.capture_twin ht.sound.built ht.sound'.built ht.hitmap k msg msg.app d.tgt d.what
        with ⟨hn, hn'⟩ | ⟨g, g', change, te, hs, hs', hb, hb', hg, hin, hin', hev, hinert⟩
      · rw [hn, hn']
        exact .inl ⟨d, d', ht.toTwin, hkept, hkept', .inr ⟨_, rfl, rfl⟩⟩
      · rw [hs, hs']
        rw [hkept.1] at hin
        rw [hkept'.1] at hin' hinert
        have htwin : Twin k sync group
            { d with hitmap := g, catchedMessages := d.catchedMessages + 1 }
            { d' with hitmap := g', tgt := d.tgt, what := d.what,
                      catchedMessages := d'.catchedMessages + 1 } :=
          ⟨⟨hb, ht.sound.tgt, ht.sound.what⟩, ⟨hb', ht.sound.tgt, ht.sound.what⟩, hg, .inl ht.fed,
            ht.lastSrc, ht.lastTgt, ht.lastWhat⟩
        exact .inr ⟨_, _, change, te, htwin, rfl, rfl, hin, hin', hev, hinert⟩
  · exact hp.elim
  · exact hp.elim
  · obtain ⟨rfl, ht⟩ := hp
    have hkept := (kept_passes L k msg).of_error hx
    have hkept' := (kept_passes L k msg).of_error hy
    exact .inl ⟨d, d', ht, hkept, hkept', .inr ⟨err, rfl, rfl⟩⟩

theorem Sound.reset (h : c.Sound k) : c.reset.Sound k := ⟨h.built.reset, h.tgt, h.what⟩

/-- A reset resets every cell: those outside the array are as new. -/
theorem Sound.reset_cells (h : c.Sound k) (s t : ℕ) :
    c.reset.hitmap.cells s t = (c.hitmap.cells s t).reset := by
  simp only [Condition.reset, Hitmap.reset]
  split_ifs with hin
  · rfl
  · rw [h.built.outside s t hin]
    rfl

/-- A reset leaves twins twins. -/
theorem Twin.reset (h : Twin k sync group c c') : Twin k sync group c.reset c'.reset := by
  have hblank (hb : c.Blank sync group) : c.reset.Blank sync group := by
    refine ⟨hb.last, fun hg s t => ?_⟩
    rw [h.sound.reset_cells]
    exact hb.what hg s t
  refine ⟨h.sound.reset, h.sound'.reset, ⟨⟨rfl, rfl, fun s t => ?_, fun s t => ?_⟩,
    fun hg s t => ?_, fun s t => ?_⟩, h.texts.imp_right hblank, h.lastSrc, h.lastTgt,
    h.lastWhat⟩ <;> rw [h.sound.reset_cells, h.sound'.reset_cells]
  · rfl
  · rfl
  · exact h.hitmap.what hg s t
  · rfl

end Condition

end MfExtensions
