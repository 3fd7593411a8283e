import Mathlib.Algebra.BigOperators.Group.Finset.Sigma
import Mathlib.Algebra.BigOperators.Ring.Finset
import Mathlib.Algebra.Order.BigOperators.Group.Finset
import Mathlib.Data.Set.Card
import MfExtensions.Proofs.Cell
import MfExtensions.Proofs.CellRun
import MfExtensions.Proofs.HitmapRun

/-!
# Counting alarms

`get_alarm_count` counts by index. The indices of a domain are the names it covers, so its counts of
sources and targets are numbers of names (`alarmCount_names`). Its count of messages adds up what
the cells hold, which is what was captured as long as no hit drops a message (`count_messages`).
-/

namespace MfExtensions

open Machine

namespace Hitmap

variable {h : Hitmap} {d : CondDomain}

/-- An index of the map, or `D_ANY`. -/
def InRange (m : IdxMap) (i : ℤ) : Prop := i = dAny ∨ ∃ v : ℕ, i = v ∧ v < m.size

/-- The range of one coordinate. -/
def idxRange (m : IdxMap) (i : ℤ) : CondRange := if i = dAny then (0, (m.size : ℤ) - 1) else (i, i)

theorem condRange_eq (hd : condDomainIsNull d = false) :
    h.condRange d = .ok (idxRange h.srcIdx d.1, idxRange h.tgtIdx d.2) := by
  unfold condRange
  rw [if_neg (by simp [hd])]
  rfl

theorem indices_nodup (r : CondRange) : (indices r).Nodup := by
  refine List.Nodup.map (fun a b hab => ?_) List.nodup_range
  simpa using hab

/-- A loop over a coordinate goes over the indices it covers. -/
theorem mem_indices {m : IdxMap} {i : ℤ} (hi : InRange m i) (s : ℤ) :
    s ∈ indices (idxRange m i) ↔ ∃ v : ℕ, s = v ∧ v < m.size ∧ IdxCovers i v := by
  simp only [indices, idxRange, List.mem_map, List.mem_range, IdxCovers]
  by_cases hany : i = dAny
  · simp only [if_pos hany]
    constructor
    · rintro ⟨v, hv, rfl⟩
      exact ⟨v, by omega, by omega, .inl hany⟩
    · rintro ⟨v, rfl, hv, -⟩
      exact ⟨v, by omega, by omega⟩
  · obtain ⟨w, rfl, hw⟩ := hi.resolve_left hany
    simp only [if_neg hany]
    constructor
    · rintro ⟨v, hv, rfl⟩
      exact ⟨w, by omega, hw, .inr rfl⟩
    · rintro ⟨v, rfl, -, hv⟩
      have hvw : v = w := by
        rcases hv with hv | hv
        · exact absurd hv hany
        · omega
      exact ⟨0, by omega, by omega⟩

/-- The names whose index has a property are as many as the indices that have it. -/
theorem ncard_names {m : IdxMap} (hm : m.Numbered) {l : List ℤ} (hnd : l.Nodup) {q : ℕ → Prop}
    (hl : ∀ s, s ∈ l ↔ ∃ v : ℕ, s = v ∧ v < m.size ∧ q v) :
    l.length = Set.ncard {n | ∃ v, m.find? n = some v ∧ q v} := by
  have hlen : l.length = Set.ncard {s | s ∈ l} := by
    rw [← List.toFinset_card_of_nodup hnd, ← Set.ncard_coe_finset, List.coe_toFinset]
  rw [hlen]
  refine (Set.ncard_congr (fun n _ => (((m.find? n).getD 0 : ℕ) : ℤ)) ?_ ?_ ?_).symm
  · rintro n ⟨v, hv, hq⟩
    exact (hl _).2 ⟨v, by rw [hv]; rfl, hm.lt _ (OrdMap.find?_eq_some_iff.1 hv), hq⟩
  · rintro a b ⟨v, hv, -⟩ ⟨w, hw, -⟩ hab
    rw [hv, hw, Option.getD_some, Option.getD_some, Int.ofNat_inj] at hab
    exact (hm.idx_eq_iff hv hw).1 hab
  · intro s hs
    obtain ⟨v, rfl, hlt, hq⟩ := (hl s).1 hs
    obtain ⟨⟨n, w⟩, he, rfl⟩ := hm.exists_entry hlt
    have hf := OrdMap.find?_eq_some_iff.2 he
    exact ⟨n, ⟨w, hf, hq⟩, by simp [hf]⟩

variable (h d) in
/-- The source names of a domain with a cell that is on at one of its target names. -/
def onSources : Set String :=
  {n | ∃ m s t, h.srcIdx.find? n = some s ∧ h.tgtIdx.find? m = some t ∧ Covers d (s, t) ∧
    (h.cells s t).on = true}

variable (h d) in
def onTargets : Set String :=
  {m | ∃ n s t, h.srcIdx.find? n = some s ∧ h.tgtIdx.find? m = some t ∧ Covers d (s, t) ∧
    (h.cells s t).on = true}

theorem exists_name {m : IdxMap} (hm : m.Numbered) {v : ℕ} :
    v < m.size ↔ ∃ n, m.find? n = some v := by
  constructor
  · intro hv
    obtain ⟨⟨n, w⟩, he, rfl⟩ := hm.exists_entry hv
    exact ⟨n, OrdMap.find?_eq_some_iff.2 he⟩
  · rintro ⟨n, hn⟩
    exact hm.lt _ (OrdMap.find?_eq_some_iff.1 hn)

/-- The names covered in one map with a cell that is on at a name covered in the other. -/
theorem ncard_on {m m' : IdxMap} (hm : m.Numbered) (hm' : m'.Numbered) {i j : ℤ}
    (hi : InRange m i) (hj : InRange m' j) (on : ℤ → ℤ → Bool) :
    ((indices (idxRange m i)).filter fun v => (indices (idxRange m' j)).any (on v)).length =
      Set.ncard {n | ∃ n' v w, m.find? n = some v ∧ m'.find? n' = some w ∧
        (IdxCovers i v ∧ IdxCovers j w) ∧ on v w = true} := by
  have hset : {n | ∃ n' v w, m.find? n = some v ∧ m'.find? n' = some w ∧
      (IdxCovers i v ∧ IdxCovers j w) ∧ on v w = true} =
      {n | ∃ v, m.find? n = some v ∧ IdxCovers i v ∧
        ∃ w, w < m'.size ∧ IdxCovers j w ∧ on v w = true} := by
    ext n
    simp only [exists_name hm', Set.mem_ofPred_eq]
    constructor
    · rintro ⟨n', v, w, hn, hn', ⟨hv, hw⟩, hon⟩
      exact ⟨v, hn, hv, w, ⟨n', hn'⟩, hw, hon⟩
    · rintro ⟨v, hn, hv, w, ⟨n', hn'⟩, hw, hon⟩
      exact ⟨n', v, w, hn, hn', ⟨hv, hw⟩, hon⟩
  rw [hset]
  refine ncard_names hm ((indices_nodup _).filter _) fun s => ?_
  simp only [List.mem_filter, mem_indices hi, List.any_eq_true, mem_indices hj]
  constructor
  · rintro ⟨⟨v, rfl, hv, hc⟩, _, ⟨w, rfl, hw, hc'⟩, hon⟩
    exact ⟨v, rfl, hv, hc, w, hw, hc', hon⟩
  · rintro ⟨v, rfl, hv, hc, w, hw, hc', hon⟩
    exact ⟨⟨v, rfl, hv, hc⟩, w, ⟨w, rfl, hw, hc'⟩, hon⟩

theorem WF.alarmCount_source (hw : h.WF) (hd : condDomainIsNull d = false)
    (hs : InRange h.srcIdx d.1) (ht : InRange h.tgtIdx d.2) :
    h.alarmCount d .source = .ok (h.onSources d).ncard := by
  have hcount := ncard_on hw.src hw.tgt hs ht fun s t => (h.cells s.toNat t.toNat).on
  simp only [alarmCount, condRange_eq hd, reduceCtorEq, if_false, if_true]
  exact congrArg (fun n : ℕ => Except.ok (n : ℤ)) hcount

theorem WF.alarmCount_target (hw : h.WF) (hd : condDomainIsNull d = false)
    (hs : InRange h.srcIdx d.1) (ht : InRange h.tgtIdx d.2) :
    h.alarmCount d .target = .ok (h.onTargets d).ncard := by
  have hcount := ncard_on hw.tgt hw.src ht hs fun t s => (h.cells s.toNat t.toNat).on
  have hset : h.onTargets d = {m | ∃ n t s, h.tgtIdx.find? m = some t ∧ h.srcIdx.find? n = some s ∧
      (IdxCovers d.2 t ∧ IdxCovers d.1 s) ∧ (h.cells s t).on = true} := by
    ext m
    constructor
    · rintro ⟨n, s, t, hn, hm, ⟨hsc, htc⟩, hon⟩
      exact ⟨n, t, s, hm, hn, ⟨htc, hsc⟩, hon⟩
    · rintro ⟨n, t, s, hm, hn, ⟨htc, hsc⟩, hon⟩
      exact ⟨n, s, t, hn, hm, ⟨hsc, htc⟩, hon⟩
  simp only [alarmCount, condRange_eq hd, reduceCtorEq, if_false]
  rw [hset]
  exact congrArg (fun n : ℕ => Except.ok (n : ℤ)) hcount

end Hitmap

open HitmapRun Hitmap in
/-- In every state of a hitmap, the counts of sources and targets of a domain whose indices are in
range are those of its names with a cell of the domain that is on. -/
theorem alarmCount_names (k : CondConfig) {r : HitmapRun}
    (h : Machine.Run (HitmapRun.step k) Allowed {} r) {d : CondDomain}
    (hd : condDomainIsNull d = false) (hs : InRange r.hitmap.srcIdx d.1)
    (ht : InRange r.hitmap.tgtIdx d.2) :
    r.hitmap.toHitmap.alarmCount d .source = .ok (r.hitmap.toHitmap.onSources d).ncard ∧
      r.hitmap.toHitmap.alarmCount d .target = .ok (r.hitmap.toHitmap.onTargets d).ncard := by
  have hw := (indexed h).fits.built.wf
  exact ⟨hw.alarmCount_source hd hs ht, hw.alarmCount_target hd hs ht⟩

/-- A capture of an empty text. -/
def captureOf (src : String) (time : ℤ) : HitmapAct := .capture ⟨.info, src, "", "", time⟩ src "" {}

/-- Of two sources that report twice and one that reports once the first two are on. -/
theorem alarmCount_names_two : ∃ r,
    Machine.exec (HitmapRun.step { bySource with tc := 2 }) [captureOf "x" 0, captureOf "y" 1,
      captureOf "x" 2, captureOf "y" 3, captureOf "z" 4] {} = some r ∧
    r.hitmap.toHitmap.alarmCount (dAny, dAny) .source = .ok 2 ∧
    r.hitmap.toHitmap.alarmCount (dAny, dAny) .source =
      .ok (r.hitmap.toHitmap.onSources (dAny, dAny)).ncard := by
  have h₁ : Machine.Run (HitmapRun.step { bySource with tc := 2 }) HitmapRun.Allowed {} _ :=
    .next .refl (a := captureOf "x" 0) trivial rfl
  have h₂ := h₁.next (a := captureOf "y" 1) trivial rfl
  have h₃ := h₂.next (a := captureOf "x" 2) trivial rfl
  have h₄ := h₃.next (a := captureOf "y" 3) trivial rfl
  have h₅ := h₄.next (a := captureOf "z" 4) trivial rfl
  exact ⟨_, rfl, rfl, (alarmCount_names _ h₅ (by decide) (.inl rfl) (.inl rfl)).1⟩

/-! ## Messages -/

/-- The cell is not on for good, its first message is not too old for the new one, and it holds
fewer than the trigger count. -/
def Cell.KeepsAll (k : CondConfig) (msg : Msg) (x : Cell) : Prop :=
  (x.on && k.persistent) = false ∧ (∀ m ∈ x.msgs.head?, msg.time - m.time ≤ k.ts) ∧
    x.msgs.length < sizeT k.tc

/-- What a hit of a cell that is not on for good leaves of the messages. -/
theorem Cell.hit_msgs {k : CondConfig} {msg : Msg} {w : Smatch} {x y : Cell} {te : Option ℤ}
    {flipped : Bool} (hidle : (x.on && k.persistent) = false)
    (h : x.hit k msg w = some (y, te, flipped)) :
    unexpired k msg.time (x.msgs ++ [msg]) ≠ [] ∧
      y.msgs = popExcess (sizeT k.tc) (unexpired k msg.time (x.msgs ++ [msg])) := by
  have hheld : ∃ fresh, popExpired msg.time k.ts (x.msgs ++ [msg]) = some fresh ∧
      y.msgs = popExcess (sizeT k.tc) fresh := by
    rcases hit_cases h with hon | ⟨-, hfresh, -, -⟩ | ⟨-, hfresh, -, -⟩
    · exact absurd (hidle.symm.trans hon) Bool.false_ne_true
    · exact ⟨_, hfresh, rfl⟩
    · exact ⟨_, hfresh, rfl⟩
  obtain ⟨fresh, hfresh, hmsgs⟩ := hheld
  rw [popExpired_eq] at hfresh
  split_ifs at hfresh with hne
  obtain rfl := Option.some_inj.1 hfresh
  exact ⟨hne, hmsgs⟩

/-- Nothing is popped off the front just if the first message is not too old. -/
theorem Cell.unexpired_length (k : CondConfig) (latest : ℤ) (m : Msg) (ms : List Msg) :
    (unexpired k latest (m :: ms)).length ≤ (m :: ms).length ∧
      ((unexpired k latest (m :: ms)).length = (m :: ms).length ↔ latest - m.time ≤ k.ts) := by
  rw [unexpired, List.dropWhile_cons]
  by_cases hold : k.ts < latest - m.time
  · have hle := (List.dropWhile_sublist (fun m : Msg => decide (k.ts < latest - m.time))
      (l := ms)).length_le
    rw [if_pos (decide_eq_true hold), List.length_cons]
    omega
  · rw [if_neg (by simpa using hold)]
    exact ⟨le_rfl, iff_of_true rfl (not_lt.1 hold)⟩

theorem Cell.hit_length {k : CondConfig} {msg : Msg} {w : Smatch} {x y : Cell} {te : Option ℤ}
    {flipped : Bool} (h : x.hit k msg w = some (y, te, flipped)) :
    y.msgs.length ≤ x.msgs.length + 1 ∧
      (y.msgs.length = x.msgs.length + 1 ↔ x.KeepsAll k msg) := by
  unfold KeepsAll
  by_cases hidle : (x.on && k.persistent) = true
  · rw [hit_of_persistent hidle, Option.some_inj, Prod.mk.injEq] at h
    have hlen : y.msgs.length = x.msgs.length := by
      rw [← h.1]
      simp
    refine ⟨by omega, iff_of_false (by omega) fun hk => ?_⟩
    rw [hidle] at hk
    exact absurd hk.1 (by simp)
  · rw [Bool.not_eq_true] at hidle
    obtain ⟨hne, hmsgs⟩ := hit_msgs hidle h
    have hlen : y.msgs.length =
        min (sizeT k.tc) (unexpired k msg.time (x.msgs ++ [msg])).length := by
      rw [hmsgs, popExcess, List.length_drop]
      omega
    rw [hlen]
    rcases hx : x.msgs with _ | ⟨m, ms⟩
    · rw [hx, List.nil_append] at hne hlen
      have hone := (unexpired_length k msg.time msg []).1
      have hpos := List.length_pos_iff.2 hne
      simp only [List.length_nil, List.length_singleton, List.nil_append, List.head?_nil, hidle,
        Option.not_mem_none, false_implies, implies_true, true_and] at hone ⊢
      omega
    · obtain ⟨hle, heq⟩ := unexpired_length k msg.time m (ms ++ [msg])
      simp only [List.cons_append, List.length_cons, List.length_append, List.length_nil, hidle,
        List.head?_cons, Option.mem_def, Option.some.injEq, forall_eq', true_and] at hle heq ⊢
      omega

namespace Hitmap

variable {h : Hitmap} {d : CondDomain}

/-- The indices of a map that a coordinate covers. -/
def coveredIdx (m : IdxMap) (i : ℤ) : Finset ℕ :=
  if i = dAny then Finset.range m.size else {i.toNat}

theorem sum_indices {m : IdxMap} {i : ℤ} (hi : InRange m i) (f : ℤ → ℤ) :
    ((indices (idxRange m i)).map f).sum = ∑ v ∈ coveredIdx m i, f v := by
  unfold idxRange coveredIdx indices
  by_cases hany : i = dAny
  · have hsize : ((m.size : ℤ) - 1 - 0 + 1).toNat = m.size := by omega
    simp only [if_pos hany, hsize, List.map_map, zero_add]
    have hrange : Finset.range m.size = (List.range m.size).toFinset := by
      ext v
      simp
    rw [hrange, List.sum_toFinset _ List.nodup_range]
    rfl
  · obtain ⟨w, rfl, -⟩ := hi.resolve_left hany
    simp [hany]

theorem alarmCount_messages (hd : condDomainIsNull d = false) (hs : InRange h.srcIdx d.1)
    (ht : InRange h.tgtIdx d.2) : h.alarmCount d .none =
      .ok ((∑ p ∈ coveredIdx h.srcIdx d.1 ×ˢ coveredIdx h.tgtIdx d.2,
        (h.cells p.1 p.2).msgs.length : ℕ) : ℤ) := by
  have hsum : ((indices (idxRange h.srcIdx d.1)).map fun s =>
      ((indices (idxRange h.tgtIdx d.2)).map fun t =>
        ((h.cells s.toNat t.toNat).msgs.length : ℤ)).sum).sum =
      ((∑ p ∈ coveredIdx h.srcIdx d.1 ×ˢ coveredIdx h.tgtIdx d.2,
        (h.cells p.1 p.2).msgs.length : ℕ) : ℤ) := by
    simp only [sum_indices hs, sum_indices ht, Int.toNat_natCast, Finset.sum_product, Nat.cast_sum]
  simp only [alarmCount, condRange_eq hd, if_true]
  exact congrArg Except.ok hsum

end Hitmap

/-- The elements with a key in a finite set are counted key by key. -/
theorem countP_mem_eq_sum {α κ : Type} [DecidableEq κ] (key : α → κ) (s : Finset κ)
    (l : List α) : l.countP (fun a => key a ∈ s) = ∑ x ∈ s, l.countP fun a => key a = x := by
  induction l with
  | nil => simp
  | cons a l ih => simp [List.countP_cons, ih, Finset.sum_add_distrib]

namespace HitmapRun

variable {k : CondConfig} {r r' : HitmapRun}

/-- The messages captured since the last reset that came to a cell. -/
def capturedAt (r : HitmapRun) (c : ℕ × ℕ) : ℕ := r.captured.countP fun p => p.cell = c

/-- No cell holds more messages than came to it. -/
def NotMore (r : HitmapRun) : Prop :=
  ∀ s t, (r.hitmap.cells s t).msgs.length ≤ r.capturedAt (s, t)

/-- Every cell holds as many messages as came to it. -/
def Holds (r : HitmapRun) : Prop :=
  ∀ s t, (r.hitmap.cells s t).msgs.length = r.capturedAt (s, t)

/-- The captured message is dropped by no cell and drops none. -/
def KeepsAll (k : CondConfig) : HitmapAct → HitmapRun → Prop
  | .capture msg src tgt _, r =>
    (r.hitmap.cells (r.hitmap.locate k src tgt).2.1.1
      (r.hitmap.locate k src tgt).2.2.1).KeepsAll k msg
  | a, r => Allowed a r

theorem capturedAt_append (p : Captured) (hr : r'.captured = r.captured ++ [p]) (c : ℕ × ℕ) :
    r'.capturedAt c = r.capturedAt c + if p.cell = c then 1 else 0 := by
  simp [capturedAt, hr, List.countP_append, List.countP_singleton]

/-- A capture changes what one cell holds. -/
theorem capture_lengths (hi : Indexed k r) {msg : Msg} {src tgt : String} {what : Smatch}
    (hs : run k (.capture msg src tgt what) r = .ok r') : ∃ s t,
      (r'.hitmap.cells s t).msgs.length ≤ (r.hitmap.cells s t).msgs.length + 1 ∧
      ((r'.hitmap.cells s t).msgs.length = (r.hitmap.cells s t).msgs.length + 1 ↔
        KeepsAll k (.capture msg src tgt what) r) ∧
      r'.capturedAt (s, t) = r.capturedAt (s, t) + 1 ∧
      ∀ s' t', (s', t') ≠ (s, t) → r'.hitmap.cells s' t' = r.hitmap.cells s' t' ∧
        r'.capturedAt (s', t') = r.capturedAt (s', t') := by
  obtain ⟨x, te, flipped, hhit, hmap, hcap, -⟩ := run_capture hi.fits hs
  rw [hi.fits.locate_cells] at hhit
  obtain ⟨hle, heq⟩ := Cell.hit_length hhit
  have hcells := hi.fits.locate_cells k src tgt
  refine ⟨(r.hitmap.locate k src tgt).2.1.1, (r.hitmap.locate k src tgt).2.2.1, ?_, ?_, ?_,
    fun s t hne => ⟨?_, ?_⟩⟩
  · rw [hmap]
    simpa [ArrayHitmap.setCell] using hle
  · rw [hmap]
    simpa [ArrayHitmap.setCell, KeepsAll] using heq
  · rw [capturedAt_append _ hcap, if_pos rfl]
  · rw [hmap]
    simp only [ArrayHitmap.setCell, hcells]
    rw [if_neg fun h => hne (Prod.ext h.1 h.2)]
  · rw [capturedAt_append _ hcap, if_neg (Ne.symm hne), Nat.add_zero]

theorem Indexed.reset_lengths (hi : Indexed k r) (s t : ℕ) :
    (r.hitmap.reset.cells s t).msgs = [] := by
  have hin : r.hitmap.Inside s t ↔ s < r.hitmap.srcCap ∧ t < r.hitmap.tgtCap := by
    rw [ArrayHitmap.Inside, hi.fits.extents]
  simp only [ArrayHitmap.reset]
  split_ifs with h
  · rfl
  · rw [hi.fits.outside s t (hin.not.2 h)]

theorem event_lengths (hi : Indexed k r) {s t : ℕ} {ts : ℤ} (ha : Allowed (.event s t ts) r)
    (hs : step k (.event s t ts) r = some r') :
    (∀ s' t', (r'.hitmap.cells s' t').msgs = (r.hitmap.cells s' t').msgs) ∧
      r'.captured = r.captured := by
  obtain ⟨te, he⟩ := ha
  rw [HitmapRun.step, run_event (hi.scheduled _ he)] at hs
  obtain rfl := Option.some.inj hs
  refine ⟨fun s' t' => ?_, rfl⟩
  simp only [ArrayHitmap.setCell]
  split_ifs with h
  · rw [h.1, h.2]
    exact (CellRun.event_fields ts _).1
  · rfl

theorem capture_of_step {msg : Msg} {src tgt : String} {what : Smatch}
    (hs : step k (.capture msg src tgt what) r = some r') :
    run k (.capture msg src tgt what) r = .ok r' := by
  unfold HitmapRun.step at hs
  rcases hrun : run k (.capture msg src tgt what) r with e | r₁
  · rw [hrun] at hs
    cases hs
  · rw [hrun] at hs
    rw [Option.some.inj hs]

theorem NotMore.step (hi : Indexed k r) (hn : NotMore r) {a : HitmapAct} (ha : Allowed a r)
    (hs : step k a r = some r') : NotMore r' := by
  intro s t
  cases a with
  | capture msg src tgt what =>
    obtain ⟨cs, ct, hle, -, hcap, hrest⟩ := capture_lengths hi (capture_of_step hs)
    by_cases hc : (s, t) = (cs, ct)
    · obtain ⟨rfl, rfl⟩ := Prod.mk.inj hc
      have := hn s t
      omega
    · rw [(hrest s t hc).1, (hrest s t hc).2]
      exact hn s t
  | event s' t' ts =>
    obtain ⟨hmsgs, hcap⟩ := event_lengths hi ha hs
    rw [hmsgs, capturedAt, hcap]
    exact hn s t
  | reset =>
    obtain rfl := Option.some.inj hs
    simp [hi.reset_lengths]

theorem notMore (h : Machine.Run (HitmapRun.step k) Allowed {} r) : NotMore r := by
  have hboth := h.invariant (I := fun r => Indexed k r ∧ NotMore r)
    ⟨Indexed.init, fun _ _ => Nat.zero_le _⟩
    fun a s s' hi ha hs => ⟨hi.1.step ha hs, hi.2.step hi.1 ha hs⟩
  exact hboth.2

theorem KeepsAll.allowed {a : HitmapAct} (h : KeepsAll k a r) : Allowed a r := by
  cases a with
  | capture => trivial
  | event => exact h
  | reset => trivial

/-- A captured message is counted if and only if no message is dropped for it. -/
theorem Holds.capture (hi : Indexed k r) (hh : Holds r) {msg : Msg} {src tgt : String}
    {what : Smatch} (hs : step k (.capture msg src tgt what) r = some r') :
    Holds r' ↔ KeepsAll k (.capture msg src tgt what) r := by
  obtain ⟨cs, ct, -, hiff, hcap, hrest⟩ := capture_lengths hi (capture_of_step hs)
  have hc := hh cs ct
  rw [← hiff]
  constructor
  · intro hh'
    have := hh' cs ct
    omega
  · intro hone s t
    by_cases heq : (s, t) = (cs, ct)
    · obtain ⟨rfl, rfl⟩ := Prod.mk.inj heq
      omega
    · rw [(hrest s t heq).1, (hrest s t heq).2]
      exact hh s t

theorem Holds.step (hi : Indexed k r) (hh : Holds r) {a : HitmapAct} (ha : KeepsAll k a r)
    (hs : step k a r = some r') : Holds r' := by
  cases a with
  | capture msg src tgt what => exact (hh.capture hi hs).2 ha
  | event s' t' ts =>
    obtain ⟨hmsgs, hcap⟩ := event_lengths hi ha hs
    intro s t
    rw [hmsgs, capturedAt, hcap]
    exact hh s t
  | reset =>
    obtain rfl := Option.some.inj hs
    intro s t
    simp [hi.reset_lengths, capturedAt]

/-! ### Counts -/

variable (k r) in
/-- `count(cond, 'message')` is the number of messages captured since the last reset, of all of
them or of those of one source or target. -/
def CountsMeant : Prop :=
  r.hitmap.toHitmap.alarmCount (dAny, dAny) .none = .ok (r.captured.length : ℤ) ∧
  (∀ n s, r.hitmap.srcIdx.find? n = some s →
    r.hitmap.toHitmap.alarmCount ((s : ℤ), dAny) .none =
      .ok ((r.captured.countP fun p => srcName k p.src = n : ℕ) : ℤ)) ∧
  ∀ n t, r.hitmap.tgtIdx.find? n = some t →
    r.hitmap.toHitmap.alarmCount (dAny, (t : ℤ)) .none =
      .ok ((r.captured.countP fun p => tgtName k p.tgt = n : ℕ) : ℤ)

open Hitmap

theorem Indexed.cell_lt (hi : Indexed k r) {p : Captured} (hp : p ∈ r.captured) :
    p.cell.1 < r.hitmap.srcIdx.size ∧ p.cell.2 < r.hitmap.tgtIdx.size :=
  ⟨hi.fits.src.lt _ (OrdMap.find?_eq_some_iff.1 (hi.cells p hp).1),
    hi.fits.tgt.lt _ (OrdMap.find?_eq_some_iff.1 (hi.cells p hp).2)⟩

theorem coveredIdx_natCast (m : IdxMap) (s : ℕ) : coveredIdx m (s : ℤ) = {s} := by
  have hne : (s : ℤ) ≠ dAny := by
    simp only [dAny]
    omega
  rw [coveredIdx, if_neg hne, Int.toNat_natCast]

theorem inRange_natCast {m : IdxMap} (hm : m.Numbered) {n : String} {s : ℕ}
    (h : m.find? n = some s) : InRange m s :=
  .inr ⟨s, rfl, hm.lt _ (OrdMap.find?_eq_some_iff.1 h)⟩

theorem condDomain_not_null {i j : ℤ} (hi : i = dAny ∨ 0 ≤ i) (hj : j = dAny ∨ 0 ≤ j) :
    condDomainIsNull (i, j) = false := by
  rw [condDomainIsNull, Bool.or_eq_false_iff, decide_eq_false_iff_not, decide_eq_false_iff_not]
  unfold dAny at hi hj
  unfold dNil
  omega

/-- What came to the cells of a domain, counted cell by cell. -/
theorem sum_capturedAt (d : CondDomain) :
    ∑ c ∈ coveredIdx r.hitmap.srcIdx d.1 ×ˢ coveredIdx r.hitmap.tgtIdx d.2, r.capturedAt c =
      r.captured.countP fun p =>
        p.cell ∈ coveredIdx r.hitmap.srcIdx d.1 ×ˢ coveredIdx r.hitmap.tgtIdx d.2 :=
  (countP_mem_eq_sum Captured.cell _ r.captured).symm

theorem Holds.alarmCount (hh : Holds r) {d : CondDomain} (hd : condDomainIsNull d = false)
    (hs : InRange r.hitmap.srcIdx d.1) (ht : InRange r.hitmap.tgtIdx d.2) :
    r.hitmap.toHitmap.alarmCount d .none = .ok ((r.captured.countP fun p =>
      p.cell ∈ coveredIdx r.hitmap.srcIdx d.1 ×ˢ coveredIdx r.hitmap.tgtIdx d.2 : ℕ) : ℤ) := by
  rw [alarmCount_messages hd hs ht, ← sum_capturedAt]
  congr 2
  exact Finset.sum_congr rfl fun c _ => hh c.1 c.2

theorem Indexed.countsMeant_iff (hi : Indexed k r) (hn : NotMore r) :
    CountsMeant k r ↔ Holds r := by
  have hall : ∀ p ∈ r.captured,
      p.cell ∈ coveredIdx r.hitmap.srcIdx dAny ×ˢ coveredIdx r.hitmap.tgtIdx dAny := by
    intro p hp
    have := hi.cell_lt hp
    simp [coveredIdx, this.1, this.2]
  have htotal : (r.captured.countP fun p => p.cell ∈
      coveredIdx r.hitmap.srcIdx dAny ×ˢ coveredIdx r.hitmap.tgtIdx dAny) = r.captured.length :=
    List.countP_eq_length.2 fun p hp => decide_eq_true (hall p hp)
  constructor
  · rintro ⟨htot, -⟩ s t
    rw [alarmCount_messages (d := (dAny, dAny)) rfl (.inl rfl) (.inl rfl), Except.ok.injEq,
      Int.ofNat_inj] at htot
    have hsum := htot.trans (htotal.symm.trans (sum_capturedAt (dAny, dAny)).symm)
    by_cases hin : (s, t) ∈ coveredIdx r.hitmap.srcIdx dAny ×ˢ coveredIdx r.hitmap.tgtIdx dAny
    · exact (Finset.sum_eq_sum_iff_of_le fun c _ => hn c.1 c.2).1 hsum (s, t) hin
    · have hzero : r.capturedAt (s, t) = 0 := by
        refine List.countP_eq_zero.2 fun p hp hc => hin ?_
        rw [← of_decide_eq_true hc]
        exact hall p hp
      have := hn s t
      omega
  · intro hh
    refine ⟨?_, fun n s hns => ?_, fun n t hnt => ?_⟩
    · rw [hh.alarmCount (d := (dAny, dAny)) rfl (.inl rfl) (.inl rfl), htotal]
    · rw [hh.alarmCount (d := ((s : ℤ), dAny)) (condDomain_not_null (.inr (by omega)) (.inl rfl))
        (inRange_natCast hi.fits.src hns) (.inl rfl)]
      congr 2
      refine List.countP_congr fun p hp => ?_
      rw [decide_eq_true_iff, decide_eq_true_iff, coveredIdx_natCast, Finset.mem_product,
        Finset.mem_singleton, ← hi.fits.src.idx_eq_iff (hi.cells p hp).1 hns]
      exact and_iff_left (Finset.mem_product.1 (hall p hp)).2
    · rw [hh.alarmCount (d := (dAny, (t : ℤ))) (condDomain_not_null (.inl rfl) (.inr (by omega)))
        (.inl rfl) (inRange_natCast hi.fits.tgt hnt)]
      congr 2
      refine List.countP_congr fun p hp => ?_
      rw [decide_eq_true_iff, decide_eq_true_iff, coveredIdx_natCast, Finset.mem_product,
        Finset.mem_singleton, ← hi.fits.tgt.idx_eq_iff (hi.cells p hp).2 hnt]
      exact and_iff_right (Finset.mem_product.1 (hall p hp)).1

end HitmapRun

open HitmapRun in
/-- Where no hit drops a message, the count of messages is that of the messages captured, and a
message for which one is dropped makes it wrong. -/
theorem count_messages (k : CondConfig) :
    (∀ r, Machine.Run (HitmapRun.step k) (KeepsAll k) {} r → CountsMeant k r) ∧
    ∀ r, Machine.Run (HitmapRun.step k) Allowed {} r → CountsMeant k r →
      ∀ msg src tgt what r', HitmapRun.step k (.capture msg src tgt what) r = some r' →
        (CountsMeant k r' ↔ KeepsAll k (.capture msg src tgt what) r) := by
  refine ⟨fun r h => ?_, fun r h hm msg src tgt what r' hs => ?_⟩
  · have hall : Machine.Run (HitmapRun.step k) Allowed {} r := by
      refine Relation.ReflTransGen.mono (fun s s' hstep => ?_) _ _ h
      obtain ⟨a, ha, hs⟩ := hstep
      exact ⟨a, ha.allowed, hs⟩
    have hboth := h.invariant (I := fun r => Indexed k r ∧ Holds r) ⟨Indexed.init, fun _ _ => rfl⟩
      fun a s s' hi ha hs => ⟨hi.1.step ha.allowed hs, hi.2.step hi.1 ha hs⟩
    exact (hboth.1.countsMeant_iff (notMore hall)).2 hboth.2
  · have hi := indexed h
    have hi' := hi.step (a := .capture msg src tgt what) trivial hs
    have hn' := (notMore h).step hi (a := .capture msg src tgt what) trivial hs
    rw [hi'.countsMeant_iff hn']
    exact ((hi.countsMeant_iff (notMore h)).1 hm).capture hi hs

/-- Two messages of one source and one of another are fewer than the trigger count of each. -/
theorem count_messages_three : ∃ r,
    Machine.exec (HitmapRun.step { bySource with tc := 3 }) [captureOf "x" 0, captureOf "x" 1,
      captureOf "y" 2] {} = some r ∧
    r.captured.length = 3 ∧ HitmapRun.CountsMeant { bySource with tc := 3 } r := by
  have h₁ : Machine.Run (HitmapRun.step { bySource with tc := 3 })
      (HitmapRun.KeepsAll { bySource with tc := 3 }) {} _ :=
    .next .refl (a := captureOf "x" 0) ⟨rfl, by decide, by decide⟩ rfl
  have h₂ := h₁.next (a := captureOf "x" 1) ⟨rfl, by decide, by decide⟩ rfl
  have h₃ := h₂.next (a := captureOf "y" 2) ⟨rfl, by decide, by decide⟩ rfl
  exact ⟨_, rfl, rfl, (count_messages _).1 _ h₃⟩

/-- The second message of a source replaces the first, and one is counted. -/
theorem not_countsMeant_two : ∃ r₁ r₂,
    HitmapRun.step bySource (.capture ⟨.info, "x", "", "", 0⟩ "x" "" {}) {} = some r₁ ∧
      HitmapRun.step bySource (.capture ⟨.info, "x", "", "", 1⟩ "x" "" {}) r₁ = some r₂ ∧
      ¬HitmapRun.CountsMeant bySource r₂ := by
  refine ⟨_, _, rfl, rfl, fun h => ?_⟩
  have htwo := h.1
  change (Except.ok 1 : Except Err ℤ) = .ok 2 at htwo
  exact absurd (Except.ok.inj htwo) (by decide)

end MfExtensions
