import MfExtensions.Proofs.FeedThrows
import MfExtensions.Proofs.HitmapCount
import MfExtensions.Proofs.TwinEngine

/-!
# The message behind an alarm

An entry of an alarm that stands for more than one cell is shown by the first name in the order of
the map and by the cell at index 0, for the source, the target and the text each on its own. So an
alarm that a message raises shows that message only if its names come first and its cell is the one
read (`alarm_shows_iff`).
-/

namespace MfExtensions

open Exec

/-! ## Names -/

/-- The message with the name `name` is shown by an entry with the coordinate `i`: names are
distinguished, or `name` is the global one, and no name there was before comes first. -/
def ShowsName (per : Bool) (glob : String) (m : IdxMap) (name : String) (i : ℤ) : Prop :=
  (per = true ∨ name = glob) ∧ (i = dAny → ∀ n ∈ m.keys, name ≤ n) ∧ i < 2 ^ 32

namespace Hitmap

theorem nameOf_mem_keys {nilMsg : String} {m : IdxMap} {i : ℤ} {s : String}
    (h : nameOf nilMsg m i = .ok s) : s ∈ m.keys := by
  unfold nameOf at h
  rcases hentries : m.entries with _ | ⟨e, es⟩ <;> rw [hentries] at h
  · simp at h
  · simp only at h
    rw [OrdMap.keys, hentries]
    split_ifs at h
    · obtain rfl := Except.ok.inj h
      exact List.mem_cons_self
    · rcases hf : (e :: es).find? fun e => e.2 = unsigned i with _ | e' <;> rw [hf] at h
      · simp at h
      · obtain rfl := Except.ok.inj h
        exact List.mem_map_of_mem (List.mem_of_find?_eq_some hf)

/-- The name of `D_ANY` is the first one. -/
theorem nameOf_any_iff {nilMsg name : String} {m : IdxMap} (h : name ∈ m.keys) :
    nameOf nilMsg m dAny = .ok name ↔ ∀ n ∈ m.keys, name ≤ n := by
  have hsorted := m.sorted
  rw [OrdMap.keys] at h ⊢
  rcases hentries : m.entries with _ | ⟨e, es⟩ <;> rw [hentries] at h hsorted
  · simp at h
  have hfirst : nameOf nilMsg m dAny = .ok e.1 := by
    rw [nameOf, hentries]
    rfl
  have hle : ∀ n ∈ (e :: es).map Prod.fst, e.1 ≤ n := by
    intro n hn
    obtain ⟨e', he', rfl⟩ := List.mem_map.1 hn
    rcases List.mem_cons.1 he' with rfl | he'
    · exact le_rfl
    · exact ((List.pairwise_cons.1 hsorted).1 e' he').le
  rw [hfirst]
  constructor
  · intro heq
    rwa [← Except.ok.inj heq]
  · intro hname
    rw [le_antisymm (hle name h) (hname e.1 List.mem_cons_self)]

/-- The name of an index is the one that has it, as far as the index is in the range of an
`unsigned`. -/
theorem nameOf_natCast_iff {nilMsg name : String} {m : IdxMap} (hm : m.Numbered) {j : ℕ}
    (h : m.find? name = some j) : nameOf nilMsg m j = .ok name ↔ j < 2 ^ 32 := by
  have hmem := OrdMap.find?_eq_some_iff.1 h
  have hlt : j < m.size := hm.lt _ hmem
  have hnil : (j : ℤ) ≠ dNil := by
    simp only [dNil]
    omega
  have hany : (j : ℤ) ≠ dAny := by
    simp only [dAny]
    omega
  have hj : unsigned j = j % 2 ^ 32 := by
    unfold unsigned
    omega
  rcases hentries : m.entries with _ | ⟨e, es⟩
  · rw [hentries] at hmem
    simp at hmem
  rw [nameOf, hentries]
  simp only [if_neg hnil, if_neg hany, hj]
  rw [if_neg (by omega), ← hentries]
  constructor
  · intro hok
    rcases hf : m.entries.find? fun e => e.2 = j % 2 ^ 32 with _ | e' <;> rw [hf] at hok
    · simp at hok
    have hidx : e'.2 = j % 2 ^ 32 := by simpa using List.find?_some hf
    -- the entry found has the name, so it has the index
    obtain rfl := Except.ok.inj hok
    have := OrdMap.entry_unique (List.mem_of_find?_eq_some hf) hmem
    omega
  · intro hsmall
    rcases hf : m.entries.find? fun e => e.2 = j % 2 ^ 32 with _ | e'
    · have : ¬j = j % 2 ^ 32 := by simpa using List.find?_eq_none.1 hf _ hmem
      omega
    · have hidx : e'.2 = j % 2 ^ 32 := by simpa using List.find?_some hf
      have := hm.inj _ (List.mem_of_find?_eq_some hf) _ hmem (by simp only; omega)
      rw [hf, this]

theorem nameOf_covers_iff {nilMsg name : String} {m : IdxMap} (hm : m.Numbered) {i : ℤ} {j : ℕ}
    (h : m.find? name = some j) (hi : IdxCovers i j) : nameOf nilMsg m i = .ok name ↔
      (i = dAny → ∀ n ∈ m.keys, name ≤ n) ∧ i < 2 ^ 32 := by
  rcases hi with rfl | rfl
  · rw [nameOf_any_iff (OrdMap.mem_keys.2 (by rw [h]; rfl))]
    simp [dAny]
  · have hany : (j : ℤ) ≠ dAny := by
      simp only [dAny]
      omega
    rw [nameOf_natCast_iff hm h]
    simp only [hany, false_imp_iff, true_and]
    omega

/-- What the map a message leaves tells of the message. -/
theorem nameOf_findIndex_iff {nilMsg glob name : String} {per : Bool} {m : IdxMap}
    (hm : m.Numbered) (hglob : per = false → ∀ n, m.find? n ≠ none → n = glob) {i : ℤ}
    (hi : IdxCovers i (findIndex per glob m name).2.1) :
    nameOf nilMsg (findIndex per glob m name).1 i = .ok name ↔ ShowsName per glob m name i := by
  obtain ⟨hfound, hkeys, -⟩ := findIndex_found hm hglob name
  have hmem (n : String) : n ∈ (findIndex per glob m name).1.keys ↔
      n ∈ m.keys ∨ n = if per then name else glob := by
    rw [OrdMap.mem_keys, OrdMap.mem_keys, Option.isSome_iff_ne_none, Option.isSome_iff_ne_none]
    exact hkeys n
  have hname : (per = true ∨ name = glob) → (if per then name else glob) = name := by
    rintro (rfl | rfl)
    · rfl
    · exact ite_self _
  have hiff : (per = true ∨ name = glob) →
      (nameOf nilMsg (findIndex per glob m name).1 i = .ok name ↔
        (i = dAny → ∀ n ∈ m.keys, name ≤ n) ∧ i < 2 ^ 32) := by
    intro hper
    rw [hname hper] at hfound hmem
    rw [nameOf_covers_iff (findIndex_numbered hm _ _ _) hfound hi]
    refine and_congr_left fun _ => forall_congr' fun _ => ⟨fun h n hn => ?_, fun h n hn => ?_⟩
    · exact h n ((hmem n).2 (.inl hn))
    · rcases (hmem n).1 hn with hn | rfl
      · exact h n hn
      · exact le_rfl
  constructor
  · intro h
    have hper : per = true ∨ name = glob := by
      rcases (hmem name).1 (nameOf_mem_keys h) with hn | hn
      · cases per with
        | true => exact .inl rfl
        | false => exact .inr (hglob rfl name (Option.isSome_iff_ne_none.1 (OrdMap.mem_keys.1 hn)))
      · cases per with
        | true => exact .inl rfl
        | false => exact .inr hn
    exact ⟨hper, (hiff hper).1 h⟩
  · rintro ⟨hper, h⟩
    exact (hiff hper).2 h

end Hitmap

/-! ## Cells -/

/-- A hit ends with its message, unless it pops the message itself off a cell that is on for good
and empty. -/
theorem Cell.hit_getLast {k : CondConfig} {msg : Msg} {w : Smatch} {x y : Cell} {te : Option ℤ}
    {flipped : Bool} (h : x.hit k msg w = some (y, te, flipped)) :
    y.msgs.getLast? =
      if x.on = true ∧ k.persistent = true ∧ x.msgs = [] then none else some msg := by
  by_cases hidle : (x.on && k.persistent) = true
  · have hmsgs : y.msgs = (x.msgs ++ [msg]).tail := by
      simp only [hit, hidle, if_true, Option.some.injEq, Prod.mk.injEq] at h
      rw [← h.1]
    rw [Bool.and_eq_true] at hidle
    rw [hmsgs]
    rcases hx : x.msgs with _ | ⟨m, ms⟩
    · simp [hidle]
    · simp
  · rw [Bool.not_eq_true] at hidle
    have hne : ¬(x.on = true ∧ k.persistent = true ∧ x.msgs = []) := by
      rintro ⟨hon, hper, -⟩
      simp [hon, hper] at hidle
    obtain ⟨hfresh, hmsgs⟩ := hit_msgs hidle h
    have hcount : sizeT k.tc ≠ 0 := by
      intro h0
      simp [hit, hidle, popExpired_eq k, hfresh, h0, popExcess, nextEvent] at h
    have hlen := List.length_pos_iff.2 hfresh
    have hsuffix : y.msgs <:+ x.msgs ++ [msg] := by
      rw [hmsgs]
      exact (List.drop_suffix _ _).trans (List.dropWhile_suffix _)
    have hy : y.msgs ≠ [] := by
      rw [hmsgs, popExcess, ← List.length_pos_iff, List.length_drop]
      omega
    rw [if_neg hne, List.getLast?_eq_some_getLast hy, hsuffix.getLast hy,
      List.getLast_append_singleton]

namespace Hitmap

/-- The indices of the cell that is read for an entry. -/
def cellRead (v : CondDomain) : ℕ × ℕ :=
  ((if v.1 = dAny then 0 else v.1).toNat, (if v.2 = dAny then 0 else v.2).toNat)

/-- The cell that the message is captured by. -/
def ownCell (k : CondConfig) (msg : Msg) (tgt : String) (h : Hitmap) : ℕ × ℕ :=
  ((h.locate k msg.app tgt).2.1.1, (h.locate k msg.app tgt).2.2.1)

/-- The text of the message is shown by the entry: its cell is read, and does not drop it, or the
last message of the cell that is read has the same text. -/
def ShowsText (k : CondConfig) (msg : Msg) (tgt : String) (v : CondDomain) (h : Hitmap) : Prop :=
  let x := h.cells (cellRead v).1 (cellRead v).2
  if cellRead v = h.ownCell k msg tgt then ¬(x.on = true ∧ k.persistent = true ∧ x.msgs = [])
  else ∃ m, x.msgs.getLast? = some m ∧ m.text = msg.text

/-- What the message finds, before it is captured, lets the entry show it. -/
structure ShowsTrigger (k : CondConfig) (msg : Msg) (tgt : String) (v : CondDomain) (h : Hitmap) :
    Prop where
  source : ShowsName k.perSource globalS h.srcIdx msg.app v.1
  target : ShowsName k.perTarget globalT h.tgtIdx tgt v.2
  text : h.ShowsText k msg tgt v

/-- Names that are not distinguished are the global one. -/
structure OneName (k : CondConfig) (h : Hitmap) : Prop where
  src : k.perSource = false → ∀ n, h.srcIdx.find? n ≠ none → n = globalS
  tgt : k.perTarget = false → ∀ n, h.tgtIdx.find? n ≠ none → n = globalT

variable {k : CondConfig} {msg : Msg} {tgt : String} {what : Smatch} {h h' : Hitmap}
  {change : Change} {te : Option CellEvent} {v : CondDomain}

/-- The cell of the message is hit, the others are as they were. -/
theorem Built.capture_cells (hb : h.Built)
    (hc : capture k msg msg.app tgt what h = some (h', change, te)) :
    ∃ x te' flipped, (h.cells (h.ownCell k msg tgt).1 (h.ownCell k msg tgt).2).hit k msg what =
        some (x, te', flipped) ∧
      ∀ c : ℕ × ℕ, h'.cells c.1 c.2 = if c = h.ownCell k msg tgt then x else h.cells c.1 c.2 := by
  unfold ownCell
  simp only [capture, hb.locate_eq] at hc ⊢
  generalize (findIndex k.perSource globalS h.srcIdx msg.app).2.1 = s at hc ⊢
  generalize (findIndex k.perTarget globalT h.tgtIdx tgt).2.1 = t at hc ⊢
  rcases hit : (h.cells s t).hit k msg what with _ | ⟨x, te', flipped⟩ <;> rw [hit] at hc
  · simp at hc
  · obtain ⟨rfl, -⟩ := Prod.mk.inj (Option.some.inj hc)
    refine ⟨x, te', flipped, rfl, fun c => ?_⟩
    simp only [Prod.ext_iff]
    rfl

theorem message_capture_iff (hb : h.Built)
    (hc : capture k msg msg.app tgt what h = some (h', change, te)) (hs : h'.srcIdx.isEmpty = false)
    (ht : h'.tgtIdx.isEmpty = false) (hv : condDomainIsNull v = false) :
    h'.message v = .ok msg.text ↔ h.ShowsText k msg tgt v := by
  obtain ⟨x, te', flipped, hhit, hcells⟩ := hb.capture_cells hc
  have hread : h'.message v = (h'.cells (cellRead v).1 (cellRead v).2).latestMessage := by
    simp only [message, cellOf, hs, ht, hv]
    rfl
  rw [hread, hcells, Cell.latestMessage]
  unfold ShowsText
  by_cases hown : cellRead v = h.ownCell k msg tgt
  · simp only [hown, if_true, Cell.hit_getLast hhit]
    split_ifs with hlost <;> simp [hlost]
  · simp only [hown, if_false]
    cases (h.cells (cellRead v).1 (cellRead v).2).msgs.getLast? <;> simp

theorem findIndex_oneName {per : Bool} {glob : String} {m : IdxMap}
    (h : per = false → ∀ n, m.find? n ≠ none → n = glob) (name : String) :
    per = false → ∀ n, (findIndex per glob m name).1.find? n ≠ none → n = glob := by
  rintro rfl n
  simp only [findIndex, Bool.not_false, if_true]
  split_ifs with hemp
  · rw [OrdMap.find?_insert]
    split_ifs with hn
    · exact fun _ => hn
    · exact h rfl n
  · exact h rfl n

theorem OneName.capture (h₁ : OneName k h)
    (hc : capture k msg msg.app tgt what h = some (h', change, te)) : OneName k h' := by
  obtain ⟨hs, ht, -, -⟩ := capture_idx hc
  exact ⟨hs ▸ findIndex_oneName h₁.src _, ht ▸ findIndex_oneName h₁.tgt _⟩

theorem oneName_empty (hs : h.srcIdx = OrdMap.empty) (ht : h.tgtIdx = OrdMap.empty) :
    OneName k h :=
  ⟨fun _ _ hn => absurd (by rw [hs]; rfl) hn, fun _ _ hn => absurd (by rw [ht]; rfl) hn⟩

theorem findIndex_not_isEmpty {per : Bool} {glob : String} {m : IdxMap} (hm : m.Numbered)
    (hglob : per = false → ∀ n, m.find? n ≠ none → n = glob) (name : String) :
    (findIndex per glob m name).1.isEmpty = false := by
  rw [← Bool.not_eq_true, OrdMap.isEmpty_iff]
  intro hemp
  have hfound := (findIndex_found hm hglob name).1
  rw [hemp] at hfound
  exact nomatch hfound

end Hitmap

/-! ## Conditions -/

namespace Condition

/-- What is put in for the source, the target and the text of the condition is those of the
message. -/
def Shows (x : Condition) (v : CondDomain) (msg : Msg) (tgt : String) : Prop :=
  x.arg v .source = .ok msg.app ∧ x.arg v .target = .ok tgt ∧ x.arg v .message = .ok msg.text

variable {L : LexicalCast} {k : CondConfig} {msg : Msg} {x x' : Condition} {v : CondDomain}

theorem oneName_matchMsg (h : x.hitmap.OneName k) :
    (final (matchMsg L k msg) x).hitmap.OneName k := by
  rcases matchMsg_cases L k msg x with
    ⟨c', hkept, hm | ⟨err, hm⟩⟩ | ⟨c₁, hitmap, change, te, -, hcap, hm⟩
  · rw [final_ok hm, hkept.1]
    exact h
  · rw [final_error hm, hkept.1]
    exact h
  · rw [final_ok hm]
    exact h.capture hcap

/-- An entry that the cell of a captured message is in. -/
theorem shows_captured_iff (hb : x.hitmap.Built) (h₁ : x.hitmap.OneName k)
    {p : Change × Option Hitmap.CellEvent} (h : matchMsg L k msg x = .ok (some p) x')
    (hv : Covers v (x.hitmap.ownCell k msg x'.lastTgt)) :
    x'.Shows v msg x'.lastTgt ↔ x.hitmap.ShowsTrigger k msg x'.lastTgt v := by
  obtain ⟨-, hcap⟩ := matchMsg_captured L k msg h
  obtain ⟨hs, ht, -, -⟩ := Hitmap.capture_idx hcap
  have hnull : condDomainIsNull v = false := by
    rw [← Bool.not_eq_true]
    exact fun hn => not_covers_of_null hn _ hv
  have hmessage : x'.arg v .message = .ok msg.text ↔
      x.hitmap.ShowsText k msg x'.lastTgt v := by
    refine Hitmap.message_capture_iff hb hcap ?_ ?_ hnull
    · rw [hs]
      exact Hitmap.findIndex_not_isEmpty hb.wf.src h₁.src _
    · rw [ht]
      exact Hitmap.findIndex_not_isEmpty hb.wf.tgt h₁.tgt _
  simp only [Hitmap.ownCell, hb.locate_eq] at hv
  have hsource : x'.arg v .source = .ok msg.app ↔
      ShowsName k.perSource Hitmap.globalS x.hitmap.srcIdx msg.app v.1 := by
    rw [arg, Hitmap.source, hs]
    exact Hitmap.nameOf_findIndex_iff hb.wf.src h₁.src hv.1
  have htarget : x'.arg v .target = .ok x'.lastTgt ↔
      ShowsName k.perTarget Hitmap.globalT x.hitmap.tgtIdx x'.lastTgt v.2 := by
    rw [arg, Hitmap.target, ht]
    exact Hitmap.nameOf_findIndex_iff hb.wf.tgt h₁.tgt hv.2
  rw [Shows, hsource, htarget, hmessage]
  exact ⟨fun ⟨hs, ht, hm⟩ => ⟨hs, ht, hm⟩, fun h => ⟨h.source, h.target, h.text⟩⟩

theorem not_shows_of_empty {tgt : String} (h : x.hitmap.srcIdx = OrdMap.empty) :
    ¬x.Shows v msg tgt := by
  rintro ⟨hsource, -⟩
  rw [arg, Hitmap.source, h] at hsource
  exact nomatch hsource

end Condition

/-! ## The feed -/

variable {C R : Type} [DecidableEq C] [LinearOrder R] {cfg : Config C R}

theorem Passed.oneName {e : Engine C R} (h : Passed cfg e) (c : C) :
    (e.conds c).hitmap.OneName (cfg.cond c) := by
  refine h.invariant (I := fun e => ∀ c, (e.conds c).hitmap.OneName (cfg.cond c))
    (fun _ => Hitmap.oneName_empty rfl rfl) (fun e e' hI hs => ?_) c
  have hconds : ∀ (c : C) (x : Condition), x.hitmap.OneName (cfg.cond c) →
      ∀ c', (Function.update e.conds c x c').hitmap.OneName (cfg.cond c') := fun c x hx =>
    (Function.forall_update_iff e.conds fun c' x => x.hitmap.OneName (cfg.cond c')).2
      ⟨hx, fun c' _ => hI c'⟩
  cases hs with
  | matched c msg => exact hconds c _ (Condition.oneName_matchMsg (hI c))
  | events | emitted | supervised | participants | domain | evaluated | switched => exact hI
  | delivered ev => exact hconds _ _ ⟨(hI ev.cond).src, (hI ev.cond).tgt⟩
  | cleared cs rs hok =>
    intro c
    show (if cs c then (e.conds c).reset else e.conds c).hitmap.OneName (cfg.cond c)
    split_ifs
    · exact Hitmap.oneName_empty rfl rfl
    · exact hI c

namespace Engine

/-- In the feed of `msg` to `e`, the conditions are as in `e₁` when the message has been put to
them, and the rule `r` is come to in `e₂` and raises `alarm`, which leaves `e₃`. -/
structure Raises (cfg : Config C R) (msg : Msg) (now : ℤ) (r : R) (alarm : Domain)
    (e e₁ e₂ e₃ : Engine C R) : Prop where
  comes : ∃ l e' rs rs', matchConds cfg msg cfg.cmap {} e = .ok l e₁ ∧
    evaluateRulesDomain cfg (notifyDomain cfg l) e₁ = .ok () e' ∧
    notifyStatus cfg l = rs ++ r :: rs' ∧ evaluateRules cfg now rs e' = .ok () e₂
  raised : onRule cfg r (fun V => Rule.evaluate (cfg.rule r) V now) e₂ = .ok true e₃
  alarm : (e₃.rules r).getAlarm = .ok alarm

variable {msg : Msg} {now : ℤ} {r : R} {alarm : Domain} {e e₁ e₂ e₃ : Engine C R}

/-- The conditions are as the message left them, but for those that a rule before `r` reset. -/
theorem Raises.conds (h : Raises cfg msg now r alarm e e₁ e₂ e₃) (c : C) :
    e₃.conds c = e₂.conds c ∧
      (e₂.conds c = e₁.conds c ∨ (e₂.conds c).hitmap.srcIdx = OrdMap.empty) := by
  obtain ⟨⟨l, e', rs, rs', -, hdomains, -, hrules⟩, hraised, -⟩ := h
  have hrule {α : Type} (r : R) (x : View C → EStateM Err (Rule C) α) (e : Engine C R) :
      (final (onRule cfg r x) e).conds c = e.conds c := by
    rw [final_onRule]
  have hframe := Pre.frame fun e : Engine C R => e.conds c
  refine ⟨by rw [← final_ok hraised, hrule], ?_⟩
  have hd : e'.conds c = e₁.conds c :=
    (moves_evaluateRulesDomain cfg hframe _ fun r _ e => hrule r _ e).of_ok hdomains
  rw [← final_ok hrules, ← hd]
  refine evaluateRules_keeps
    (I := fun e => e.conds c = e'.conds c ∨ (e.conds c).hitmap.srcIdx = OrdMap.empty)
    (fun r => ?_) (fun e log h => h) (fun cs rs e _ h => ?_) rs e' (passResets_any cfg now rs e')
    (.inl rfl)
  · refine moves_raiseAlarm cfg (Pre.keeps _) (fun e h => ?_) fun o => moves_modify fun e h => h
    rwa [hrule]
  · show (if cs c then (e.conds c).reset else e.conds c) = e'.conds c ∨
      (if cs c then (e.conds c).reset else e.conds c).hitmap.srcIdx = OrdMap.empty
    split_ifs
    · exact .inr rfl
    · exact h

/-- The entry of a condition in an alarm that a message of the condition raises in its domain shows
that message just if no rule before has reset the condition and what the message found lets it. -/
theorem alarm_shows_iff (he : Reachable cfg e) (h : Raises cfg msg now r alarm e e₁ e₂ e₃) {c : C}
    {p : Change × Option Hitmap.CellEvent}
    (hcap : Condition.matchMsg cfg.lex (cfg.cond c) msg (e.conds c) = .ok (some p) (e₁.conds c))
    (hv : Covers (alarm.at ((cfg.rule r).conditions.idxOf c))
      ((e.conds c).hitmap.ownCell (cfg.cond c) msg (e₁.conds c).lastTgt)) :
    (e₃.conds c).Shows (alarm.at ((cfg.rule r).conditions.idxOf c)) msg (e₁.conds c).lastTgt ↔
      (e₂.conds c).hitmap.srcIdx ≠ OrdMap.empty ∧
        (e.conds c).hitmap.ShowsTrigger (cfg.cond c) msg (e₁.conds c).lastTgt
          (alarm.at ((cfg.rule r).conditions.idxOf c)) := by
  have hb : (e.conds c).hitmap.Built := (he.twin.conds c).sound.built
  have hiff := Condition.shows_captured_iff hb (he.passed.oneName c) hcap hv
  obtain ⟨h₃, h₂⟩ := h.conds c
  rw [h₃]
  by_cases hemp : (e₂.conds c).hitmap.srcIdx = OrdMap.empty
  · exact iff_of_false (Condition.not_shows_of_empty hemp) fun hne => hne.1 hemp
  · rw [h₂.resolve_right hemp, hiff, and_iff_right]
    rwa [← h₂.resolve_right hemp]

end Engine

/-! ## The wrong source -/

/-- A rule `count(a) == 1 || count(a) != 1` on a condition that distinguishes sources, and texts as
targets. -/
def countingConfig : Config Unit Unit where
  lex := ⟨fun _ => none, fun _ => none⟩
  cmap := [()]
  rmap := [()]
  cond _ := { name := "a", severity := .debug, anySrc := true, e := Regex.wholeText,
              perSource := true, perTarget := true }
  rule _ := .plain "r"
    [[.func () (.count .none) (.double .e 1)], [.func () (.count .none) (.double .ne 1)]] [] "hit"
    [] (Eq.refl true)
  mem_cmap := mem_unit
  cmap_nodup := unit_nodup
  mem_rmap := mem_unit
  rmap_nodup := unit_nodup
  condName_inj _ _ _ := rfl
  ruleName_inj _ _ _ := rfl

theorem counting_term (V : View Unit) {n : ℤ}
    (hn : (V.conds ()).hitmap.alarmCount (dAny, dAny) .none = .ok n) (value : Domain)
    (op : CompareOp) (s : EvalState) :
    BooleanCond.evaluate V [()] value [(dAny, dAny)] (.func () (.count .none) (.double op 1)) s =
      .ok (compare op (Float.ofInt n) 1) { s with alarm := s.alarm.set 0 (dAny, dAny) } := by
  have hcount (sync : ℕ → SyncTable) : ExtFunc.evaluate V (V.conds ()) (dAny, dAny)
      (.count .none) sync = .ok (.int n) sync := by
    simp only [ExtFunc.evaluate, hn]
    rfl
  have hat : Domain.at [(dAny, dAny)] 0 = (dAny, dAny) := rfl
  rw [BooleanCond.evaluate]
  simp only [bind_apply, modify_apply, zoom, List.idxOf_cons_self, hat, hcount]
  rfl

/-- The rule raises an alarm whatever it counts. -/
theorem counting_evaluate (V : View Unit) {n : ℤ} (now : ℤ)
    (hn : (V.conds ()).hitmap.alarmCount (dAny, dAny) .none = .ok n) :
    Rule.evaluate (countingConfig.rule ()) V now (countingConfig.rule ()).init = .ok true
      (Rule.raise (countingConfig.rule ()) V now [(dAny, dAny)] (countingConfig.rule ()).init) := by
  have hexpr : (countingConfig.rule ()).booleanExpr.evaluate V (countingConfig.rule ()).conditions
      [(dNil, dNil)] [(dAny, dAny)] ⟨domainCtorNullOf 1, (countingConfig.rule ()).init.sync⟩ =
        .ok true ⟨[(dAny, dAny)], (countingConfig.rule ()).init.sync⟩ := by
    show BooleanCond.evaluateOr V [()] [(dNil, dNil)] [(dAny, dAny)]
      [[.func () (.count .none) (.double .e 1)], [.func () (.count .none) (.double .ne 1)]] _ = _
    cases hb : (Float.ofInt n == 1) <;>
      simp [BooleanCond.evaluateOr, BooleanCond.evaluateAnd, bind_apply, counting_term V hn,
        compare, bne, hb, domainCtorNullOf]
  have htries : Rule.tries (countingConfig.rule ()) V (countingConfig.rule ()).init =
      [([(dAny, dAny)], [(dNil, dNil)])] := rfl
  rw [Rule.evaluate_eq _ _ now rfl (Rule.wf_init _).noNull, htries, anyM_cons_apply,
    Rule.booleanEvaluate_apply]
  simp only [List.length_singleton, hexpr]
  rfl

open Engine

deriving instance DecidableEq for Engine.Changed

/-- The engine once the message has been put to its condition. -/
def countingFed (msg : Msg) (e : Engine Unit Unit) : Engine Unit Unit :=
  final (matchConds countingConfig msg [()] {}) e

def countingRaised (msg : Msg) (e : Engine Unit Unit) : Engine Unit Unit :=
  final (onRule countingConfig () fun V => Rule.evaluate (countingConfig.rule ()) V 0)
    (countingFed msg e)

theorem counting_raises (msg : Msg) (e : Engine Unit Unit) {l : Changed Unit} {n : ℤ}
    (hmatch : matchConds countingConfig msg [()] {} e = .ok l (countingFed msg e))
    (hdomain : notifyDomain countingConfig l = []) (hstatus : notifyStatus countingConfig l = [()])
    (hrule : (countingFed msg e).rules () = (countingConfig.rule ()).init)
    (hn : ((countingFed msg e).conds ()).hitmap.alarmCount (dAny, dAny) .none = .ok n) :
    Raises countingConfig msg 0 () [(dAny, dAny)] e (countingFed msg e) (countingFed msg e)
      (countingRaised msg e) := by
  have heval := counting_evaluate (countingConfig.view (countingFed msg e)) 0 hn
  rw [← hrule] at heval
  have hraised : onRule countingConfig () (fun V => Rule.evaluate (countingConfig.rule ()) V 0)
      (countingFed msg e) = .ok true (countingRaised msg e) := by
    rw [countingRaised, final_onRule, onRule_apply, heval, final_ok heval]
  refine ⟨⟨l, _, [], [], hmatch, by rw [hdomain]; rfl, hstatus, rfl⟩, hraised, ?_⟩
  rw [countingRaised, final_onRule, final_ok heval, hrule]
  rfl

/-- The first message raises an alarm that shows it. -/
theorem alarm_shows_first :
    ((countingRaised (lossyMsg "x" "first") countingConfig.init).conds ()).Shows (dAny, dAny)
      (lossyMsg "x" "first") "first" := by
  have hraises := counting_raises (lossyMsg "x" "first") countingConfig.init
    (l := ⟨[()], [()], [()]⟩) (n := 1)
    (ok_of_value? (by decide +kernel)) rfl (by decide +kernel) rfl (by decide +kernel)
  have hfirst (glob name : String) : ShowsName true glob OrdMap.empty name dAny :=
    ⟨.inl rfl, fun _ n hn => absurd hn List.not_mem_nil, by decide⟩
  have hcell : Hitmap.cellRead (dAny, dAny) = (countingConfig.init.conds ()).hitmap.ownCell
      (countingConfig.cond ()) (lossyMsg "x" "first") "first" := by decide +kernel
  have htext : (countingConfig.init.conds ()).hitmap.ShowsText (countingConfig.cond ())
      (lossyMsg "x" "first") "first" (dAny, dAny) := by
    simp only [Hitmap.ShowsText, if_pos hcell]
    decide +kernel
  refine (alarm_shows_iff .refl hraises (p := ⟨⟨true, true, true⟩, some (4372597, 0, 0)⟩) rfl
    ⟨.inl rfl, .inl rfl⟩).2 ⟨fun hemp => ?_, hfirst _ _, hfirst _ _, htext⟩
  exact absurd (OrdMap.isEmpty_iff.2 hemp) (by decide +kernel)

/-- The source `x` reports while the rule is disabled. -/
def countingState : Engine Unit Unit :=
  final (Op.exec countingConfig (.enableRule "r" true))
    (final (Op.exec countingConfig (.feed (lossyMsg "x" "first") 0))
      (final (Op.exec countingConfig (.enableRule "r" false)) countingConfig.init))

/-- Then the message of the source `y` raises an alarm that shows that of `x`. -/
theorem alarm_shows_other : Reachable countingConfig countingState ∧
    ∃ e₁ e₂ e₃ alarm p,
      Raises countingConfig (lossyMsg "y" "second") 0 () alarm countingState e₁ e₂ e₃ ∧
      Condition.matchMsg countingConfig.lex (countingConfig.cond ()) (lossyMsg "y" "second")
        (countingState.conds ()) = .ok (some p) (e₁.conds ()) ∧
      Covers (alarm.at 0) ((countingState.conds ()).hitmap.ownCell (countingConfig.cond ())
        (lossyMsg "y" "second") (e₁.conds ()).lastTgt) ∧
      (e₃.conds ()).arg (alarm.at 0) .source = .ok "x" ∧
      (e₃.conds ()).arg (alarm.at 0) .target = .ok "first" ∧
      (e₃.conds ()).arg (alarm.at 0) .message = .ok "first" ∧
      ¬(e₃.conds ()).Shows (alarm.at 0) (lossyMsg "y" "second") (e₁.conds ()).lastTgt := by
  have hsource : ((countingRaised (lossyMsg "y" "second") countingState).conds ()).arg
      (dAny, dAny) .source = .ok "x" := by decide +kernel
  refine ⟨((Reachable.step .refl _).step _).step _, _, _, _, _, ?_,
    counting_raises _ _ (l := ⟨[()], [()], [()]⟩) (n := 2) (ok_of_value? (by decide +kernel)) rfl
      (by decide +kernel) rfl (by decide +kernel), ?_, ⟨.inl rfl, .inl rfl⟩, hsource,
    by decide +kernel, by decide +kernel, fun hshows => ?_⟩
  · exact ⟨⟨true, true, true⟩, some (4372597, 1, 1)⟩
  · rfl
  · exact absurd (hsource.symm.trans hshows.1) (by decide)

end MfExtensions
