import Mathlib.Data.Set.Function
import MfExtensions.HitmapRun
import MfExtensions.Lib.Machine
import MfExtensions.Proofs.Twin

/-!
# The indices of a hitmap

The two index maps number the names seen since the last reset, no index is outside the array, and
the array grows without touching a cell (`hitmap_indexing`). The capacities survive a reset, so an
event that was scheduled before it still finds its cell. Where every access is inside, the array is
the hitmap of the conditions (`capture_toHitmap`).
-/

namespace MfExtensions

open Machine

/-- The map is a bijection from the names onto the indices below its size. -/
def IdxMap.Indexes (m : IdxMap) (names : List String) : Prop :=
  Set.BijOn m.find? {n | n ∈ names} (some '' Set.Iio m.size) ∧ ∀ n, n ∉ names → m.find? n = none

theorem IdxMap.Numbered.indexes {m : IdxMap} (hm : m.Numbered) {names : List String}
    (hn : ∀ n, m.find? n ≠ none ↔ n ∈ names) : m.Indexes names := by
  refine ⟨⟨fun n hnames => ?_, fun a ha b hb hab => ?_, ?_⟩, fun n hnames => ?_⟩
  · obtain ⟨i, hi⟩ := Option.ne_none_iff_exists'.1 ((hn n).2 hnames)
    exact ⟨i, hm.lt _ (OrdMap.find?_eq_some_iff.1 hi), hi.symm⟩
  · obtain ⟨i, hi⟩ := Option.ne_none_iff_exists'.1 ((hn a).2 ha)
    have hj : m.find? b = some i := hab.symm.trans hi
    exact (hm.idx_eq_iff hi hj).1 rfl
  · rintro _ ⟨i, hi, rfl⟩
    obtain ⟨⟨n, j⟩, he, rfl⟩ := hm.exists_entry hi
    have hf := OrdMap.find?_eq_some_iff.2 he
    exact ⟨n, (hn n).1 (by rw [hf]; simp), hf⟩
  · by_contra hne
    exact hnames ((hn n).1 hne)

/-- With the names distinguished, or one global name, a message finds its name or enters it. -/
theorem Hitmap.findIndex_name {per : Bool} {glob : String} {m : IdxMap} (hm : m.Numbered)
    (hglob : per = false → ∀ n, m.find? n ≠ none → n = glob) (name : String) :
    (∃ i, m.find? (if per then name else glob) = some i ∧
      findIndex per glob m name = (m, i, false)) ∨
    m.find? (if per then name else glob) = none ∧
      findIndex per glob m name = (m.insert (if per then name else glob) m.size, m.size, true) := by
  cases per with
  | true =>
    simp only [findIndex, Bool.not_true, Bool.false_eq_true, if_false, if_true]
    rcases hf : m.find? name with _ | i
    · exact .inr ⟨rfl, rfl⟩
    · exact .inl ⟨i, rfl, rfl⟩
  | false =>
    simp only [findIndex, Bool.not_false, if_true, Bool.false_eq_true, if_false]
    by_cases hemp : m.isEmpty = true
    · rw [if_pos hemp]
      rw [OrdMap.isEmpty_iff] at hemp
      subst hemp
      exact .inr ⟨rfl, rfl⟩
    · rw [if_neg hemp]
      have hpos : 0 < m.size := List.length_pos_iff.2 (by simpa [OrdMap.isEmpty] using hemp)
      obtain ⟨⟨n, j⟩, he, rfl⟩ := hm.exists_entry hpos
      have hf := OrdMap.find?_eq_some_iff.2 he
      rw [hglob rfl n (by rw [hf]; simp)] at hf
      exact .inl ⟨_, hf, rfl⟩

theorem IdxMap.find?_insert_ne_none {m : IdxMap} {name n : String} (h : m.find? name = none) :
    (m.insert name m.size).find? n ≠ none ↔ m.find? n ≠ none ∨ n = name := by
  rw [OrdMap.find?_insert]
  by_cases hn : n = name
  · simp [hn, h]
  · simp [hn]

/-- The name of a message is in the map it leaves, with the index given, and the others are as they
were. -/
theorem Hitmap.findIndex_found {per : Bool} {glob : String} {m : IdxMap} (hm : m.Numbered)
    (hglob : per = false → ∀ n, m.find? n ≠ none → n = glob) (name : String) :
    (findIndex per glob m name).1.find? (if per then name else glob) =
        some (findIndex per glob m name).2.1 ∧
      (∀ n, (findIndex per glob m name).1.find? n ≠ none ↔
        m.find? n ≠ none ∨ n = if per then name else glob) ∧
      ∀ n i, m.find? n = some i → (findIndex per glob m name).1.find? n = some i := by
  rcases findIndex_name hm hglob name with ⟨i, hi, heq⟩ | ⟨hnone, heq⟩
  · rw [heq]
    refine ⟨hi, fun n => ⟨.inl, ?_⟩, fun n j hj => hj⟩
    rintro (hn | rfl)
    · exact hn
    · rw [hi]
      simp
  · rw [heq]
    refine ⟨by rw [OrdMap.find?_insert, if_pos rfl, hnone, Option.getD_none],
      fun n => IdxMap.find?_insert_ne_none hnone, fun n j hj => ?_⟩
    rw [OrdMap.find?_insert, if_neg, hj]
    rintro rfl
    rw [hnone] at hj
    cases hj

namespace ArrayHitmap

variable {k : CondConfig} {h : ArrayHitmap}

@[simp] theorem setCell_srcIdx (s t : ℕ) (x : Cell) : (h.setCell s t x).srcIdx = h.srcIdx := rfl

@[simp] theorem setCell_tgtIdx (s t : ℕ) (x : Cell) : (h.setCell s t x).tgtIdx = h.tgtIdx := rfl

/-- The index maps are numbered and within the capacities, which are the extents, and there are no
cells outside. -/
structure Fits (h : ArrayHitmap) : Prop where
  src : h.srcIdx.Numbered
  tgt : h.tgtIdx.Numbered
  srcSize : h.srcIdx.size ≤ h.srcCap
  tgtSize : h.tgtIdx.size ≤ h.tgtCap
  extents : h.extents = (h.srcCap, h.tgtCap)
  outside : ∀ s t, ¬h.Inside s t → h.cells s t = {}

theorem fits_init : Fits {} :=
  ⟨IdxMap.numbered_empty, IdxMap.numbered_empty, Nat.zero_le _, Nat.zero_le _, rfl,
    fun _ _ _ => rfl⟩

theorem Fits.reset (hf : h.Fits) : h.reset.Fits := by
  refine ⟨IdxMap.numbered_empty, IdxMap.numbered_empty, Nat.zero_le _, Nat.zero_le _, hf.extents,
    fun s t hout => ?_⟩
  have hin : h.Inside s t ↔ s < h.srcCap ∧ t < h.tgtCap := by rw [Inside, hf.extents]
  simp only [ArrayHitmap.reset, if_neg (hin.not.1 hout)]
  exact hf.outside s t hout

theorem Fits.setCell (hf : h.Fits) {s t : ℕ} (hin : h.Inside s t) (x : Cell) :
    (h.setCell s t x).Fits := by
  refine ⟨hf.src, hf.tgt, hf.srcSize, hf.tgtSize, hf.extents, fun s' t' hout => ?_⟩
  have hne : ¬(s' = s ∧ t' = t) := by
    rintro ⟨rfl, rfl⟩
    exact hout hin
  simp only [ArrayHitmap.setCell, if_neg hne]
  exact hf.outside s' t' hout

/-! ## Capturing -/

variable (k h) in
theorem locate_idx (src tgt : String) :
    (h.locate k src tgt).1.srcIdx =
        (Hitmap.findIndex k.perSource Hitmap.globalS h.srcIdx src).1 ∧
      (h.locate k src tgt).1.tgtIdx =
        (Hitmap.findIndex k.perTarget Hitmap.globalT h.tgtIdx tgt).1 ∧
      (h.locate k src tgt).2 = ((Hitmap.findIndex k.perSource Hitmap.globalS h.srcIdx src).2,
        (Hitmap.findIndex k.perTarget Hitmap.globalT h.tgtIdx tgt).2) := by
  simp only [locate, resize, and_true]
  split_ifs <;> exact ⟨rfl, rfl⟩

variable (k h) in
theorem locate_caps (src tgt : String) :
    (h.locate k src tgt).1.srcCap = Hitmap.room h.srcCap (h.locate k src tgt).2.1.1 ∧
      (h.locate k src tgt).1.tgtCap = Hitmap.room h.tgtCap (h.locate k src tgt).2.2.1 := by
  rw [(locate_idx k h src tgt).2.2]
  simp only [locate, resize, Hitmap.room]
  split_ifs <;> simp_all

theorem locate_extents (he : h.extents = (h.srcCap, h.tgtCap)) (src tgt : String) :
    (h.locate k src tgt).1.extents =
      ((h.locate k src tgt).1.srcCap, (h.locate k src tgt).1.tgtCap) := by
  simp only [locate, resize]
  split_ifs <;> simp_all

/-- Growing the array moves no cell, and the new ones are as built. -/
theorem Fits.locate_cells (hf : h.Fits) (k : CondConfig) (src tgt : String) :
    (h.locate k src tgt).1.cells = h.cells := by
  have hcells : (fun s t => if h.Inside s t then h.cells s t else {}) = h.cells := by
    funext s t
    split_ifs with hin
    · rfl
    · exact (hf.outside s t hin).symm
  unfold Inside at hcells
  simp only [locate, resize, Inside]
  split_ifs <;> first | exact hcells | rfl

theorem Fits.locate (hf : h.Fits) (k : CondConfig) (src tgt : String) :
    (h.locate k src tgt).1.Fits ∧
      (h.locate k src tgt).1.Inside (h.locate k src tgt).2.1.1 (h.locate k src tgt).2.2.1 ∧
      ∀ s t, h.Inside s t → (h.locate k src tgt).1.Inside s t := by
  obtain ⟨hsrc, htgt, hat⟩ := locate_idx k h src tgt
  obtain ⟨hscap, htcap⟩ := locate_caps k h src tgt
  have hext := locate_extents (k := k) hf.extents src tgt
  obtain ⟨hs, hssize⟩ := Hitmap.findIndex_index hf.src k.perSource Hitmap.globalS src
  obtain ⟨ht, htsize⟩ := Hitmap.findIndex_index hf.tgt k.perTarget Hitmap.globalT tgt
  rw [hat] at hscap htcap ⊢
  have hsin := Hitmap.lt_room (hs.trans hf.srcSize)
  have htin := Hitmap.lt_room (ht.trans hf.tgtSize)
  have hgrow : ∀ s t, h.Inside s t → (h.locate k src tgt).1.Inside s t := by
    intro s t hin
    rw [Inside, hf.extents] at hin
    rw [Inside, hext, hscap, htcap]
    exact ⟨hin.1.trans_le (Hitmap.le_room _ _), hin.2.trans_le (Hitmap.le_room _ _)⟩
  refine ⟨⟨hsrc ▸ Hitmap.findIndex_numbered hf.src _ _ _,
    htgt ▸ Hitmap.findIndex_numbered hf.tgt _ _ _, ?_, ?_, hext, fun s t hout => ?_⟩, ?_,
    hgrow⟩
  · rw [hsrc, hscap]
    exact hssize.trans (max_le (hf.srcSize.trans (Hitmap.le_room _ _)) hsin)
  · rw [htgt, htcap]
    exact htsize.trans (max_le (hf.tgtSize.trans (Hitmap.le_room _ _)) htin)
  · rw [hf.locate_cells]
    exact hf.outside s t fun hin => hout (hgrow s t hin)
  · rw [Inside, hext, hscap, htcap]
    exact ⟨hsin, htin⟩

/-- Where the array is indexed inside, a capture fails only if the hit does. -/
theorem Fits.capture_eq (hf : h.Fits) (k : CondConfig) (msg : Msg) (src tgt : String)
    (what : Smatch) :
    h.capture k msg src tgt what =
      match ((h.locate k src tgt).1.cells (h.locate k src tgt).2.1.1
          (h.locate k src tgt).2.2.1).hit k msg what with
      | none => .error .emptyList
      | some (x, te, flipped) =>
        .ok ((h.locate k src tgt).1.setCell (h.locate k src tgt).2.1.1
            (h.locate k src tgt).2.2.1 x,
          ⟨flipped, (h.locate k src tgt).2.1.2, (h.locate k src tgt).2.2.2⟩,
          te.map fun te => (te, (h.locate k src tgt).2.1.1, (h.locate k src tgt).2.2.1)) := by
  have hin := (hf.locate k src tgt).2.1
  simp only [capture, cell, if_pos hin]
  rfl

theorem Fits.built (hf : h.Fits) : h.toHitmap.Built := by
  refine ⟨⟨hf.src, hf.tgt⟩, hf.srcSize, hf.tgtSize, fun s t hout => hf.outside s t fun hin => ?_⟩
  rw [Inside, hf.extents] at hin
  exact hout hin

/-- The array is the hitmap of the conditions. -/
theorem Fits.toHitmap_locate (hf : h.Fits) (k : CondConfig) (src tgt : String) :
    h.toHitmap.locate k src tgt = ((h.locate k src tgt).1.toHitmap, (h.locate k src tgt).2) := by
  obtain ⟨hsrc, htgt, hat⟩ := locate_idx k h src tgt
  obtain ⟨hscap, htcap⟩ := locate_caps k h src tgt
  rw [hf.built.locate_eq]
  simp only [toHitmap, hsrc, htgt, hscap, htcap, hat, hf.locate_cells]

theorem capture_toHitmap (hf : h.Fits) (k : CondConfig) (msg : Msg) (src tgt : String)
    (what : Smatch) :
    h.toHitmap.capture k msg src tgt what =
      (h.capture k msg src tgt what).toOption.map fun r => (r.1.toHitmap, r.2) := by
  rw [hf.capture_eq, Hitmap.capture, hf.toHitmap_locate]
  simp only [toHitmap]
  cases ((h.locate k src tgt).1.cells (h.locate k src tgt).2.1.1
    (h.locate k src tgt).2.2.1).hit k msg what <;> rfl

end ArrayHitmap

namespace HitmapRun

variable {k : CondConfig} {r r' : HitmapRun} {s t : ℕ}

/-- What the histories say about the maps and the array. -/
structure Indexed (k : CondConfig) (r : HitmapRun) : Prop where
  fits : r.hitmap.Fits
  src : ∀ n, r.hitmap.srcIdx.find? n ≠ none ↔ n ∈ r.captured.map fun p => srcName k p.src
  tgt : ∀ n, r.hitmap.tgtIdx.find? n ≠ none ↔ n ∈ r.captured.map fun p => tgtName k p.tgt
  cells : ∀ p ∈ r.captured, r.hitmap.srcIdx.find? (srcName k p.src) = some p.cell.1 ∧
    r.hitmap.tgtIdx.find? (tgtName k p.tgt) = some p.cell.2
  scheduled : ∀ e ∈ r.scheduled, r.hitmap.Inside e.2.1 e.2.2

theorem Indexed.init : Indexed k {} :=
  ⟨ArrayHitmap.fits_init, by simp, by simp, by simp, by simp⟩

/-- What a capture that succeeds does. -/
theorem run_capture (hf : r.hitmap.Fits) {msg : Msg} {src tgt : String} {what : Smatch}
    (hs : run k (.capture msg src tgt what) r = .ok r') : ∃ x te flipped,
      ((r.hitmap.locate k src tgt).1.cells (r.hitmap.locate k src tgt).2.1.1
        (r.hitmap.locate k src tgt).2.2.1).hit k msg what = some (x, te, flipped) ∧
      r'.hitmap = (r.hitmap.locate k src tgt).1.setCell (r.hitmap.locate k src tgt).2.1.1
        (r.hitmap.locate k src tgt).2.2.1 x ∧
      r'.captured = r.captured ++ [⟨msg, src, tgt, (r.hitmap.locate k src tgt).2.1.1,
        (r.hitmap.locate k src tgt).2.2.1⟩] ∧
      ∀ e ∈ r'.scheduled, e ∈ r.scheduled ∨
        e.2 = ((r.hitmap.locate k src tgt).2.1.1, (r.hitmap.locate k src tgt).2.2.1) := by
  simp only [run, hf.capture_eq] at hs
  rcases hhit : ((r.hitmap.locate k src tgt).1.cells (r.hitmap.locate k src tgt).2.1.1
    (r.hitmap.locate k src tgt).2.2.1).hit k msg what with _ | ⟨x, te, flipped⟩
  · rw [hhit] at hs
    cases hs
  · rw [hhit] at hs
    obtain rfl := Except.ok.inj hs
    refine ⟨x, te, flipped, rfl, rfl, rfl, fun e he => ?_⟩
    rcases List.mem_append.1 he with he | he
    · exact .inl he
    · obtain ⟨t, -, rfl⟩ := Option.map_eq_some_iff.1 (Option.mem_toList.1 he)
      exact .inr rfl

theorem run_event (hin : r.hitmap.Inside s t) (ts : ℤ) : run k (.event s t ts) r =
    .ok { r with hitmap := r.hitmap.setCell s t ((r.hitmap.cells s t).event k ts).1 } := by
  simp only [run, ArrayHitmap.event, ArrayHitmap.cell, if_pos hin]
  rfl

/-- An index given for a name is not taken from another, and a name keeps its index. -/
theorem Indexed.found (hi : Indexed k r) (src tgt : String) :
    ((r.hitmap.locate k src tgt).1.srcIdx.find? (srcName k src) =
        some (r.hitmap.locate k src tgt).2.1.1 ∧
      (r.hitmap.locate k src tgt).1.tgtIdx.find? (tgtName k tgt) =
        some (r.hitmap.locate k src tgt).2.2.1) ∧
    ((∀ n, (r.hitmap.locate k src tgt).1.srcIdx.find? n ≠ none ↔
        r.hitmap.srcIdx.find? n ≠ none ∨ n = srcName k src) ∧
      ∀ n, (r.hitmap.locate k src tgt).1.tgtIdx.find? n ≠ none ↔
        r.hitmap.tgtIdx.find? n ≠ none ∨ n = tgtName k tgt) ∧
    (∀ n i, r.hitmap.srcIdx.find? n = some i →
        (r.hitmap.locate k src tgt).1.srcIdx.find? n = some i) ∧
      ∀ n i, r.hitmap.tgtIdx.find? n = some i →
        (r.hitmap.locate k src tgt).1.tgtIdx.find? n = some i := by
  obtain ⟨hsrc, htgt, hat⟩ := ArrayHitmap.locate_idx k r.hitmap src tgt
  have hsglob : k.perSource = false → ∀ n, r.hitmap.srcIdx.find? n ≠ none →
      n = Hitmap.globalS := by
    intro hper n hn
    obtain ⟨p, -, rfl⟩ := List.mem_map.1 ((hi.src n).1 hn)
    simp [srcName, hper]
  have htglob : k.perTarget = false → ∀ n, r.hitmap.tgtIdx.find? n ≠ none →
      n = Hitmap.globalT := by
    intro hper n hn
    obtain ⟨p, -, rfl⟩ := List.mem_map.1 ((hi.tgt n).1 hn)
    simp [tgtName, hper]
  obtain ⟨hs, hsnames, hskeep⟩ := Hitmap.findIndex_found hi.fits.src hsglob src
  obtain ⟨ht, htnames, htkeep⟩ := Hitmap.findIndex_found hi.fits.tgt htglob tgt
  rw [hsrc, htgt, hat]
  exact ⟨⟨hs, ht⟩, ⟨hsnames, htnames⟩, hskeep, htkeep⟩

theorem Indexed.capture (hi : Indexed k r) {msg : Msg} {src tgt : String} {what : Smatch}
    (hs : run k (.capture msg src tgt what) r = .ok r') : Indexed k r' := by
  obtain ⟨x, te, flipped, -, hhit, hcap, hsched⟩ := run_capture hi.fits hs
  obtain ⟨hfits, hin, hgrow⟩ := hi.fits.locate k src tgt
  obtain ⟨⟨hs, ht⟩, ⟨hsnames, htnames⟩, hskeep, htkeep⟩ := hi.found src tgt
  refine ⟨hhit ▸ hfits.setCell hin x, fun n => ?_, fun n => ?_, fun p hp => ?_, fun e he => ?_⟩
  · rw [hhit, hcap, List.map_append, List.mem_append, ← hi.src]
    simpa using hsnames n
  · rw [hhit, hcap, List.map_append, List.mem_append, ← hi.tgt]
    simpa using htnames n
  · rw [hhit]
    rw [hcap] at hp
    rcases List.mem_append.1 hp with hp | hp
    · exact ⟨hskeep _ _ (hi.cells p hp).1, htkeep _ _ (hi.cells p hp).2⟩
    · obtain rfl := List.mem_singleton.1 hp
      exact ⟨hs, ht⟩
  · rw [hhit]
    rcases hsched e he with he | he
    · exact hgrow _ _ (hi.scheduled e he)
    · rw [he]
      exact hin

theorem Indexed.step (hi : Indexed k r) {a : HitmapAct} (ha : Allowed a r)
    (hs : step k a r = some r') : Indexed k r' := by
  unfold HitmapRun.step at hs
  cases a with
  | capture msg src tgt what =>
    rcases hrun : run k (.capture msg src tgt what) r with e | r₁
    · rw [hrun] at hs
      cases hs
    · rw [hrun] at hs
      obtain rfl := Option.some.inj hs
      exact hi.capture hrun
  | event s t ts =>
    obtain ⟨te, he⟩ := ha
    have hin := hi.scheduled _ he
    rw [run_event hin] at hs
    obtain rfl := Option.some.inj hs
    exact ⟨hi.fits.setCell hin _, hi.src, hi.tgt, hi.cells, hi.scheduled⟩
  | reset =>
    obtain rfl := Option.some.inj hs
    exact ⟨hi.fits.reset, by simp [ArrayHitmap.reset], by simp [ArrayHitmap.reset], by simp,
      hi.scheduled⟩

theorem indexed (h : Machine.Run (HitmapRun.step k) Allowed {} r) : Indexed k r :=
  h.invariant Indexed.init fun _ _ _ hi ha hs => hi.step ha hs

/-- No capture, and no event that was scheduled, indexes outside the array. -/
theorem Indexed.inside (hi : Indexed k r) {a : HitmapAct} (ha : Allowed a r) :
    run k a r ≠ .error .outside := by
  cases a with
  | capture msg src tgt what =>
    simp only [run, hi.fits.capture_eq]
    rcases ((r.hitmap.locate k src tgt).1.cells (r.hitmap.locate k src tgt).2.1.1
      (r.hitmap.locate k src tgt).2.2.1).hit k msg what with _ | ⟨x, te, flipped⟩
    · simp [bind, Except.bind]
    · simp [bind, Except.bind, pure, Except.pure]
  | event s t ts =>
    obtain ⟨te, he⟩ := ha
    rw [run_event (hi.scheduled _ he)]
    simp
  | reset => simp [run]

/-- Messages come to the same cell if and only if they are told apart by neither source nor
target. -/
theorem Indexed.same_cell (hi : Indexed k r) {p q : Captured} (hp : p ∈ r.captured)
    (hq : q ∈ r.captured) : p.cell = q.cell ↔
      srcName k p.src = srcName k q.src ∧ tgtName k p.tgt = tgtName k q.tgt := by
  obtain ⟨hps, hpt⟩ := hi.cells p hp
  obtain ⟨hqs, hqt⟩ := hi.cells q hq
  rw [Prod.ext_iff, hi.fits.src.idx_eq_iff hps hqs, hi.fits.tgt.idx_eq_iff hpt hqt]

end HitmapRun

/-- What an action does to a hitmap, `none` where a hit meets an empty list. -/
def HitmapAct.apply (k : CondConfig) : HitmapAct → Hitmap → Option Hitmap
  | .capture msg src tgt what, h => (h.capture k msg src tgt what).map Prod.fst
  | .event s t ts, h => some (h.event k s t ts).1
  | .reset, h => some h.reset

/-- The array does what the hitmap of the conditions does. -/
theorem HitmapRun.Indexed.step_toHitmap {k : CondConfig} {r : HitmapRun} (hi : Indexed k r)
    {a : HitmapAct} (ha : Allowed a r) :
    (HitmapRun.step k a r).map (fun r => r.hitmap.toHitmap) = a.apply k r.hitmap.toHitmap := by
  cases a with
  | capture msg src tgt what =>
    rw [HitmapAct.apply, ArrayHitmap.capture_toHitmap hi.fits, HitmapRun.step, run]
    rcases r.hitmap.capture k msg src tgt what with e | res <;> rfl
  | event s t ts =>
    obtain ⟨te, he⟩ := ha
    rw [HitmapRun.step, run_event (hi.scheduled _ he)]
    rfl
  | reset => rfl

open HitmapRun in
/-- In every state of a hitmap its maps number the names captured since the last reset, within the
capacities and extents, no access is outside the array, messages share a cell just if they are not
told apart, and growing the array leaves its cells as they are. -/
theorem hitmap_indexing (k : CondConfig) {r : HitmapRun}
    (h : Machine.Run (HitmapRun.step k) Allowed {} r) :
    r.hitmap.srcIdx.Indexes (r.captured.map fun p => srcName k p.src) ∧
    r.hitmap.tgtIdx.Indexes (r.captured.map fun p => tgtName k p.tgt) ∧
    (r.hitmap.srcIdx.size ≤ r.hitmap.srcCap ∧ r.hitmap.srcIdx.size ≤ r.hitmap.extents.1) ∧
    (r.hitmap.tgtIdx.size ≤ r.hitmap.tgtCap ∧ r.hitmap.tgtIdx.size ≤ r.hitmap.extents.2) ∧
    (∀ a, Allowed a r → run k a r ≠ .error .outside) ∧
    (∀ p ∈ r.captured, ∀ q ∈ r.captured, p.cell = q.cell ↔
      srcName k p.src = srcName k q.src ∧ tgtName k p.tgt = tgtName k q.tgt) ∧
    ∀ src tgt s t, r.hitmap.Inside s t → (r.hitmap.locate k src tgt).1.Inside s t ∧
      (r.hitmap.locate k src tgt).1.cells s t = r.hitmap.cells s t := by
  have hi := indexed h
  have hf := hi.fits
  refine ⟨hf.src.indexes hi.src, hf.tgt.indexes hi.tgt, ⟨hf.srcSize, ?_⟩, ⟨hf.tgtSize, ?_⟩,
    fun a ha => hi.inside ha, fun p hp q hq => hi.same_cell hp hq, fun src tgt s t hin => ?_⟩
  · rw [hf.extents]
    exact hf.srcSize
  · rw [hf.extents]
    exact hf.tgtSize
  · exact ⟨(hf.locate k src tgt).2.2 s t hin, by rw [hf.locate_cells]⟩

/-- A condition that every message meets and that tells their sources apart. -/
def bySource : CondConfig where
  name := "by source"
  severity := .debug
  anySrc := true
  matchAny := true
  e := .literal ""
  perSource := true

theorem hitmap_indexing_two : ∃ r₁ r₂,
    HitmapRun.step bySource (.capture ⟨.info, "y", "", "", 0⟩ "y" "" {}) {} = some r₁ ∧
      HitmapRun.step bySource (.capture ⟨.info, "x", "", "", 0⟩ "x" "" {}) r₁ = some r₂ ∧
      r₂.hitmap.srcIdx.Indexes (r₂.captured.map fun p => srcName bySource p.src) :=
  ⟨_, _, rfl, rfl, (hitmap_indexing bySource
    (.next (.next .refl (a := .capture ⟨.info, "y", "", "", 0⟩ "y" "" {}) trivial rfl)
      (a := .capture ⟨.info, "x", "", "", 0⟩ "x" "" {}) trivial rfl)).1⟩

end MfExtensions
