import MfExtensions.Proofs.Displays

/-!
# Runs of the dialog

Whatever happens to the dialog, its current tab exists (`tabs_match`) and its viewer does what the
viewer's model does (`viewer_reaches`), so every invariant of the viewer's runs holds here. The
number displays show the viewer's counts until the dialog is cleared (`lcds_shown`), and the text of
the current tab is bounded (`text_bounded`).
-/

namespace MfExtensions

open Machine

variable {M : Type} {obj : M → QtMfMsg} {fold : Char → Char}

namespace MsgViewerDlg

variable {s s' : MsgViewerDlg M} {received : List (List M)} {i : ℕ}

/-! ## What an action does to the tabs and the viewer -/

variable (obj) in
theorem redrawn_moveSlider (sev : SevCode) (s : MsgViewerDlg M) :
    Redrawn s (s.moveSlider obj sev) := by
  unfold moveSlider
  split_ifs
  · exact ⟨rfl, rfl, rfl, rfl, rfl⟩
  · have hslider : Redrawn s { s with vsSeverity := sev } := ⟨rfl, rfl, rfl, rfl, rfl⟩
    exact (hslider.trans (redrawn_setSev obj sev _)).trans (redrawn_displayMsgs obj _ _)

variable (obj) in
theorem redrawn_draw (is : List ℕ) (s : MsgViewerDlg M) :
    Redrawn s (is.foldl (fun s i => s.displayMsgs obj i) s) := by
  induction is generalizing s with
  | nil => exact ⟨rfl, rfl, rfl, rfl, rfl⟩
  | cons i is ih => exact (redrawn_displayMsgs obj i s).trans (ih _)

variable (obj) in
theorem redrawn_toggleShortMode (s : MsgViewerDlg M) : Redrawn s (s.toggleShortMode obj) := by
  have hmode : Redrawn s { s with shortMode := !s.shortMode } := ⟨rfl, rfl, rfl, rfl, rfl⟩
  exact hmode.trans (redrawn_draw obj _ _)

variable (obj) in
theorem redrawn_changeCurrent (i : ℕ) (s : MsgViewerDlg M) :
    Redrawn { s with currentIndex := i } (s.changeCurrent obj i) :=
  redrawn_tabWidgetCurrentChanged obj i { s with currentIndex := i }

variable (obj) in
/-- Some tab is current, and redrawn. -/
theorem setCurrentIndex_cases (i : ℕ) (s : MsgViewerDlg M) :
    ∃ j, (s.currentIndex < s.displays.length → j < s.displays.length) ∧
      Redrawn { s with currentIndex := j } (s.setCurrentIndex obj i) := by
  unfold setCurrentIndex
  split_ifs with hi
  · exact ⟨i, fun _ => hi.1, redrawn_changeCurrent obj i s⟩
  · exact ⟨s.currentIndex, id, rfl, rfl, rfl, rfl, rfl⟩

variable (obj) in
/-- The tab bar's current tab is one of those left. -/
theorem removeTab_cases (hi : i ≠ 0) (h : s.currentIndex < s.displays.length)
    (hlt : i < s.displays.length) :
    ∃ j, j < s.displays.length - 1 ∧ Redrawn { s with currentIndex := j } (s.removeTab obj i) := by
  unfold removeTab
  split_ifs with heq hbefore
  · exact ⟨_, by omega, redrawn_changeCurrent obj _ s⟩
  · exact ⟨_, by omega, redrawn_changeCurrent obj _ s⟩
  · exact ⟨s.currentIndex, by omega, rfl, rfl, rfl, rfl, rfl⟩

variable (obj) in
/-- A tab is closed, or there is none to close. -/
theorem tabCloseRequested_cases (i : ℕ) (s : MsgViewerDlg M) :
    (s.tabCloseRequested obj i = s ∧ (i = 0 ∨ s.viewer.msgFilters.length ≤ i)) ∨
      (i ≠ 0 ∧ i < s.viewer.msgFilters.length ∧
        s.tabCloseRequested obj i = { s.removeTab obj i with
          viewer := (s.removeTab obj i).viewer.tabCloseRequested i
          displays := (s.removeTab obj i).displays.eraseIdx i }) := by
  unfold tabCloseRequested
  by_cases hnone : i = 0 ∨ s.viewer.msgFilters.length ≤ i
  · exact .inl ⟨if_pos hnone, hnone⟩
  · refine .inr ⟨fun h => hnone (.inl h), not_le.1 fun h => hnone (.inr h), ?_⟩
    exact if_neg hnone

theorem tabbed_tabCloseRequested (h : Tabbed received s) (i : ℕ) :
    Tabbed (if i = 0 then received else received.eraseIdx i) (s.tabCloseRequested obj i) := by
  have hlength := h.length
  have hcurrent := h.current
  rcases tabCloseRequested_cases obj i s with ⟨hsame, hnone⟩ | ⟨hi, hlt, hclose⟩
  · rw [hsame]
    split_ifs with hzero
    · exact h
    · rw [List.eraseIdx_of_length_le (by rw [h.count, hlength]; omega)]
      exact h
  · obtain ⟨j, hj, hdraw⟩ := removeTab_cases obj hi hcurrent (hlength ▸ hlt)
    have ht : Tabbed received (s.removeTab obj i) :=
      hdraw.tabbed (h.of rfl rfl (by omega : j < s.displays.length))
    rw [if_neg hi, hclose]
    refine tabbed_eraseIdx (j := j) ht hi ?_ hdraw.currentIndex
    have hdraws : (s.removeTab obj i).displays.length = s.displays.length := hdraw.length
    rw [List.length_eraseIdx_of_lt (by omega)]
    omega

variable (obj) in
/-- The tabs are as before, or one was added; some tab is current, and redrawn. -/
theorem setFilter_cases (addr : M → ℕ) (hosts apps cats : List Str) (s : MsgViewerDlg M) :
    (s.viewer.setFilter addr hosts apps cats = s.viewer ∧
      ∃ j, (s.currentIndex < s.displays.length → j < s.displays.length) ∧
        Redrawn { s with currentIndex := j } (s.setFilter obj addr hosts apps cats)) ∨
    ∃ (f : MsgFilterDisplay M) (d : TabDisplay) (t : MsgViewerDlg M) (j : ℕ),
      (s.viewer.setFilter addr hosts apps cats).msgFilters = s.viewer.msgFilters ++ [f] ∧
      t = { s with
        viewer := s.viewer.setFilter addr hosts apps cats, displays := s.displays ++ [d] } ∧
      (t.currentIndex < t.displays.length → j < t.displays.length) ∧
      Redrawn { t with currentIndex := j } (s.setFilter obj addr hosts apps cats) := by
  by_cases hnone : (hosts.isEmpty && apps.isEmpty && cats.isEmpty) = true
  · have hdlg : s.setFilter obj addr hosts apps cats = s := if_pos hnone
    rw [hdlg]
    exact .inl ⟨if_pos hnone, s.currentIndex, id, rfl, rfl, rfl, rfl, rfl⟩
  unfold MsgViewerDlg.setFilter
  simp only []
  rw [if_neg hnone]
  cases hfind : s.viewer.msgFilters.findIdx? fun d =>
      d.filterExpression = MsgViewer.filterExpression hosts apps cats with
  | some d => exact .inl ⟨setFilter_same hfind, setCurrentIndex_cases obj d s⟩
  | none =>
    obtain ⟨f, hfilters, -⟩ := setFilter_msgFilters hnone hfind
    set t : MsgViewerDlg M := { s with
      viewer := s.viewer.setFilter addr hosts apps cats
      displays := s.displays ++
        [{ nDisplayMsgs := (s.viewer.filterMsgs addr hosts apps cats).length }] } with ht
    obtain ⟨j, hj, hdraw⟩ := setCurrentIndex_cases obj (t.displays.length - 1) t
    exact .inr ⟨f, _, t, j, hfilters, ht, hj, hdraw.trans (redrawn_displayMsgs obj _ _)⟩

theorem tabbed_setFilter (h : Tabbed received s) (addr : M → ℕ) (hosts apps cats : List Str) :
    Tabbed (received ++ ((s.viewer.setFilter addr hosts apps cats).msgFilters.drop
      s.viewer.msgFilters.length).map (·.msgs)) (s.setFilter obj addr hosts apps cats) := by
  rcases setFilter_cases obj addr hosts apps cats s with
    ⟨hsame, j, hj, hdraw⟩ | ⟨f, d, t, j, hfilters, rfl, hj, hdraw⟩
  · rw [hsame, List.drop_length, List.map_nil, List.append_nil]
    exact hdraw.tabbed (h.of rfl rfl (hj h.current))
  · rw [hfilters, List.drop_left, List.map_singleton]
    have ht : Tabbed (received ++ [f.msgs]) { s with
        viewer := s.viewer.setFilter addr hosts apps cats, displays := s.displays ++ [d] } :=
      tabbed_append h hfilters rfl rfl
    exact hdraw.tabbed (ht.of rfl rfl (hj ht.current))

variable [DecidableEq M]

theorem tabbed_onNewMsg (h : Tabbed received s) (m : M) :
    Tabbed (if (s.viewer.msgThrottled (obj m)).1 then received
      else s.receiveMsg obj fold m received) (s.onNewMsg obj fold m) := by
  have hfilters := (counted_same obj m s).msgFilters
  rw [onNewMsg_eq]
  split_ifs
  · exact h.of hfilters rfl h.current
  · have hpushed : Tabbed received (s.pushed obj m) := h.of hfilters rfl h.current
    rw [← receiveMsg_trimMsgPool]
    refine (redrawn_kept fold m _).tabbed (tabbed_indexed obj ?_ fold m)
    have ht := tabbed_trimDisplays obj hpushed
    rw [trimMsgPool_eq]
    simp only []
    split_ifs
    · exact ((redrawn_displayMsgs obj _ _).tabbed ht).of rfl rfl
        ((redrawn_displayMsgs obj _ _).tabbed ht).current
    · exact ht.of rfl rfl ht.current

theorem tabbed_step {a : DlgAct M} (h : Tabbed received s)
    (hs : step obj fold a s = some s') : Tabbed (s.receive obj fold a received) s' := by
  cases a with
  | onNewMsg m => exact Option.some_inj.1 hs ▸ tabbed_onNewMsg h m
  | clear => exact Option.some_inj.1 hs ▸ tabbed_clear h
  | setFilter addr hosts apps cats =>
    exact Option.some_inj.1 hs ▸ tabbed_setFilter h addr hosts apps cats
  | setCurrentIndex i =>
    obtain ⟨j, hj, hdraw⟩ := setCurrentIndex_cases obj i s
    exact Option.some_inj.1 hs ▸ hdraw.tabbed (h.of rfl rfl (hj h.current))
  | tabCloseRequested i => exact Option.some_inj.1 hs ▸ tabbed_tabCloseRequested h i
  | setSev sev => exact Option.some_inj.1 hs ▸ (redrawn_setSev obj sev s).tabbed h
  | moveSlider sev => exact Option.some_inj.1 hs ▸ (redrawn_moveSlider obj sev s).tabbed h
  | shortMode => exact Option.some_inj.1 hs ▸ (redrawn_toggleShortMode obj s).tabbed h
  | setSuppression l i status =>
    refine Option.some_inj.1 hs ▸ h.of ?_ rfl h.current
    cases l <;> rfl
  | setThrottling l i status =>
    refine Option.some_inj.1 hs ▸ h.of ?_ rfl h.current
    cases l <;> rfl

/-! ## The viewer -/

/-- What an action of the dialog is to the viewer. -/
def viewerAct : DlgAct M → Option (ViewerAct M)
  | .onNewMsg m => some (.onNewMsg m)
  | .clear => some .clear
  | .setFilter addr hosts apps cats => some (.setFilter addr hosts apps cats)
  | .tabCloseRequested i => some (.tabCloseRequested i)
  | .setSuppression l i status => some (.setSuppression l i status)
  | .setThrottling l i status => some (.setThrottling l i status)
  | .setCurrentIndex _ | .setSev _ | .moveSlider _ | .shortMode => none

theorem viewer_onNewMsg (m : M) (s : MsgViewerDlg M) :
    (s.onNewMsg obj fold m).viewer = s.viewer.onNewMsg obj fold m := by
  have hfst : (MsgViewer.msgThrottled (obj m) { s.viewer with nMsgs := s.viewer.nMsgs + 1 }).1 =
      (s.viewer.msgThrottled (obj m)).1 := by
    rw [MsgViewer.msgThrottled_fst, MsgViewer.msgThrottled_fst]
    rfl
  rw [onNewMsg_eq, MsgViewer.onNewMsg_eq, hfst]
  split_ifs
  · rfl
  · rw [(redrawn_kept fold m _).viewer, indexed, viewer_trimMsgPool]
    rfl

omit [DecidableEq M] in
theorem viewer_setFilter (addr : M → ℕ) (hosts apps cats : List Str) (s : MsgViewerDlg M) :
    (s.setFilter obj addr hosts apps cats).viewer = s.viewer.setFilter addr hosts apps cats := by
  rcases setFilter_cases obj addr hosts apps cats s with
    ⟨hsame, j, -, hdraw⟩ | ⟨f, d, t, j, -, rfl, -, hdraw⟩
  · rw [hsame, hdraw.viewer]
  · exact hdraw.viewer

omit [DecidableEq M] in
variable (obj) in
theorem redrawn_removeTab (i : ℕ) (s : MsgViewerDlg M) :
    ∃ j, Redrawn { s with currentIndex := j } (s.removeTab obj i) := by
  unfold removeTab
  split_ifs
  · exact ⟨_, redrawn_changeCurrent obj _ s⟩
  · exact ⟨_, redrawn_changeCurrent obj _ s⟩
  · exact ⟨s.currentIndex, rfl, rfl, rfl, rfl, rfl⟩

omit [DecidableEq M] in
theorem viewer_tabCloseRequested (i : ℕ) (s : MsgViewerDlg M) :
    (s.tabCloseRequested obj i).viewer = s.viewer.tabCloseRequested i := by
  rcases tabCloseRequested_cases obj i s with ⟨hsame, hnone⟩ | ⟨-, -, hclose⟩
  · rw [hsame]
    exact (if_pos hnone).symm
  · obtain ⟨j, hdraw⟩ := redrawn_removeTab obj i s
    rw [hclose]
    exact congrArg (MsgViewer.tabCloseRequested i) hdraw.viewer

/-- An action of the dialog is an action of the viewer, or leaves it as it is. -/
theorem viewer_step {a : DlgAct M} (hs : step obj fold a s = some s') :
    (∃ b, viewerAct a = some b ∧ MsgViewer.step obj fold b s.viewer = some s'.viewer) ∨
      viewerAct a = none ∧ s'.viewer = s.viewer := by
  cases a with
  | onNewMsg m =>
    exact Option.some_inj.1 hs ▸ .inl ⟨_, rfl, congrArg some (viewer_onNewMsg m s).symm⟩
  | clear => exact Option.some_inj.1 hs ▸ .inl ⟨_, rfl, rfl⟩
  | setFilter addr hosts apps cats =>
    exact Option.some_inj.1 hs ▸
      .inl ⟨_, rfl, congrArg some (viewer_setFilter addr hosts apps cats s).symm⟩
  | setCurrentIndex i =>
    obtain ⟨j, -, hdraw⟩ := setCurrentIndex_cases obj i s
    exact Option.some_inj.1 hs ▸ .inr ⟨rfl, hdraw.viewer⟩
  | tabCloseRequested i =>
    exact Option.some_inj.1 hs ▸
      .inl ⟨_, rfl, congrArg some (viewer_tabCloseRequested i s).symm⟩
  | setSev sev => exact Option.some_inj.1 hs ▸ .inr ⟨rfl, (redrawn_setSev obj sev s).viewer⟩
  | moveSlider sev =>
    exact Option.some_inj.1 hs ▸ .inr ⟨rfl, (redrawn_moveSlider obj sev s).viewer⟩
  | shortMode => exact Option.some_inj.1 hs ▸ .inr ⟨rfl, (redrawn_toggleShortMode obj s).viewer⟩
  | setSuppression l i status => exact Option.some_inj.1 hs ▸ .inl ⟨_, rfl, rfl⟩
  | setThrottling l i status => exact Option.some_inj.1 hs ▸ .inl ⟨_, rfl, rfl⟩

/-! ## The number displays -/

/-- The counts of the viewer, in the order of `lcds`. -/
def counts (v : MsgViewer M) : ℤ × ℤ × ℤ × ℤ := (v.nMsgs, v.nDeleted, v.nSupMsgs, v.nThrMsgs)

omit [DecidableEq M] in
theorem msgThrottled_counts (msg : QtMfMsg) (v : MsgViewer M) :
    (v.msgThrottled msg).2.nMsgs = v.nMsgs ∧ (v.msgThrottled msg).2.nDeleted = v.nDeleted ∧
      ((v.msgThrottled msg).1 = false → (v.msgThrottled msg).2.nSupMsgs = v.nSupMsgs ∧
        (v.msgThrottled msg).2.nThrMsgs = v.nThrMsgs) := by
  unfold MsgViewer.msgThrottled
  dsimp only
  split_ifs
  · exact ⟨rfl, rfl, fun h => h.elim⟩
  · exact ⟨rfl, rfl, fun h => h.elim⟩
  · exact ⟨rfl, rfl, fun h => h.elim⟩
  · exact ⟨rfl, rfl, fun h => h.elim⟩
  · exact ⟨rfl, rfl, fun _ => ⟨add_sub_cancel_right _ _, add_sub_cancel_right _ _⟩⟩

theorem lcds_trimMsgPool (s : MsgViewerDlg M) : (s.trimMsgPool obj).lcds =
    (s.lcdMsgs, (s.viewer.trimMsgPool obj).nDeleted, s.lcdSuppressionCount,
      s.lcdThrottlingCount) := by
  rw [trimMsgPool_eq]
  simp only []
  split_ifs <;> rfl

/-- `trim_msg_pool` changes one count. -/
theorem counts_trimMsgPool (v : MsgViewer M) : counts (v.trimMsgPool obj) =
    (v.nMsgs, (v.trimMsgPool obj).nDeleted, v.nSupMsgs, v.nThrMsgs) := by
  have htrim : (v.trimLoop obj v.msgPool {}).1.nMsgs = v.nMsgs ∧ _ :=
    MsgViewer.trimLoop_counts v.msgPool v {} rfl
  obtain ⟨hmsgs, hsup, hthr, -⟩ := htrim
  unfold counts MsgViewer.trimMsgPool
  simp only [hmsgs, hsup, hthr]

/-- `onNewMsg` shows each of the counts it changes. -/
theorem lcds_onNewMsg (m : M) (h : s.lcds = counts s.viewer) :
    (s.onNewMsg obj fold m).lcds = counts (s.onNewMsg obj fold m).viewer := by
  obtain ⟨hmsgs, hdeleted, hkept⟩ :=
    msgThrottled_counts (obj m) { s.viewer with nMsgs := s.viewer.nMsgs + 1 }
  have hfst : (MsgViewer.msgThrottled (obj m) { s.viewer with nMsgs := s.viewer.nMsgs + 1 }).1 =
      (s.viewer.msgThrottled (obj m)).1 := by
    rw [MsgViewer.msgThrottled_fst, MsgViewer.msgThrottled_fst]
    rfl
  simp only [lcds, counts, Prod.mk.injEq] at h
  obtain ⟨-, hlcdDeleted, hlcdSup, hlcdThr⟩ := h
  rw [onNewMsg_eq]
  split_ifs with hthr
  · simp only [lcds, counts, counted, hmsgs, hdeleted, hlcdDeleted]
  · obtain ⟨hsup, hthrottled⟩ := hkept (hfst.trans (Bool.not_eq_true _ ▸ hthr))
    have hindexed : counts (((s.pushed obj m).trimMsgPool obj).indexed obj fold m).viewer =
        counts ((s.pushed obj m).trimMsgPool obj).viewer := rfl
    have hlcds : (((s.pushed obj m).trimMsgPool obj).indexed obj fold m).lcds =
        ((s.pushed obj m).trimMsgPool obj).lcds := rfl
    rw [(redrawn_kept fold m _).lcds, (redrawn_kept fold m _).viewer, hindexed, hlcds,
      lcds_trimMsgPool, viewer_trimMsgPool, counts_trimMsgPool]
    simp only [pushed, counted, hmsgs, hsup, hthrottled, hlcdSup, hlcdThr]

theorem lcds_step {a : DlgAct M} (h : s.lcds = counts s.viewer)
    (hclear : a ≠ .clear) (hs : step obj fold a s = some s') : s'.lcds = counts s'.viewer := by
  have hredrawn : ∀ {i : ℕ} {t : MsgViewerDlg M}, Redrawn { s with currentIndex := i } t →
      t.lcds = counts t.viewer := fun hdraw => by
    rw [hdraw.lcds, hdraw.viewer]
    exact h
  cases a with
  | onNewMsg m => exact Option.some_inj.1 hs ▸ lcds_onNewMsg m h
  | clear => exact absurd rfl hclear
  | setFilter addr hosts apps cats =>
    have hcounts : counts (s.viewer.setFilter addr hosts apps cats) = counts s.viewer := by
      unfold MsgViewer.setFilter
      simp only []
      split_ifs <;> rfl
    rw [← Option.some_inj.1 hs, viewer_setFilter, hcounts, ← h]
    rcases setFilter_cases obj addr hosts apps cats s with
      ⟨-, j, -, hdraw⟩ | ⟨f, d, t, j, -, rfl, -, hdraw⟩
    · exact hdraw.lcds
    · exact hdraw.lcds
  | setCurrentIndex i =>
    obtain ⟨j, -, hdraw⟩ := setCurrentIndex_cases obj i s
    exact Option.some_inj.1 hs ▸ hredrawn hdraw
  | tabCloseRequested i =>
    have hcounts : counts (s.viewer.tabCloseRequested i) = counts s.viewer := by
      unfold MsgViewer.tabCloseRequested
      split_ifs <;> rfl
    rw [← Option.some_inj.1 hs, viewer_tabCloseRequested, hcounts, ← h]
    rcases tabCloseRequested_cases obj i s with ⟨hsame, -⟩ | ⟨-, -, hclose⟩
    · rw [hsame]
    · obtain ⟨j, hdraw⟩ := redrawn_removeTab obj i s
      rw [hclose]
      exact hdraw.lcds
  | setSev sev => exact Option.some_inj.1 hs ▸ hredrawn (redrawn_setSev obj sev s)
  | moveSlider sev => exact Option.some_inj.1 hs ▸ hredrawn (redrawn_moveSlider obj sev s)
  | shortMode => exact Option.some_inj.1 hs ▸ hredrawn (redrawn_toggleShortMode obj s)
  | setSuppression l i status =>
    refine Option.some_inj.1 hs ▸ h.trans ?_
    cases l <;> rfl
  | setThrottling l i status =>
    refine Option.some_inj.1 hs ▸ h.trans ?_
    cases l <;> rfl

/-! ## How long the text gets -/

theorem length_trimLoop : ∀ (ms : List M) (v : MsgViewer M) (u : MsgViewer.ListUpdate),
    v.msgPool = ms → 0 < v.maxMsgs →
    (MsgViewer.trimLoop obj ms v u).1.msgPool.length ≤ v.maxMsgs
  | [], v, u, hpool, _ => by
    rw [MsgViewer.trimLoop, hpool]
    exact Nat.zero_le _
  | m :: ms, v, u, hpool, hmax => by
    rw [MsgViewer.trimLoop]
    split_ifs with hfull
    · refine length_trimLoop ms (MsgViewer.trimRound obj m v u).1 _ ?_ hmax
      show v.msgPool.tail = ms
      rw [hpool, List.tail_cons]
    · rw [hpool]
      omega

/-- The pool is within the limit, and each tab is but for the message it received last. -/
structure Bounded (obj : M → QtMfMsg) (limit : ℕ) (v : MsgViewer M) : Prop where
  consistent : MsgViewer.Consistent obj v
  maxMsgs : v.maxMsgs = limit
  pool : v.msgPool.length ≤ limit
  tabs : ∀ d ∈ v.msgFilters, d.msgs.length ≤ limit + 1

/-- An item of a list is selected once. -/
def Selects : ViewerAct M → Prop
  | .setFilter _ hosts apps cats => hosts.Nodup ∧ apps.Nodup ∧ cats.Nodup
  | _ => True

variable {limit : ℕ}

omit [DecidableEq M] in
theorem Bounded.of_same {v v' : MsgViewer M} (h : Bounded obj limit v)
    (hs : MsgViewer.Same v v') : Bounded obj limit v' where
  consistent := hs.consistent h.consistent
  maxMsgs := hs.maxMsgs.trans h.maxMsgs
  pool := by
    rw [hs.msgPool]
    exact h.pool
  tabs := by
    rw [hs.msgFilters]
    exact h.tabs

theorem bounded_keep {v : MsgViewer M} {m : M} (hlimit : 0 < limit) (h : Bounded obj limit v)
    (hconsistent : MsgViewer.Consistent obj (MsgViewer.keep obj fold m v)) :
    Bounded obj limit (MsgViewer.keep obj fold m v) := by
  have hmax := h.maxMsgs
  obtain ⟨-, -, -, -, hpool, -, -⟩ := MsgViewer.keep_fields obj fold m v
  refine ⟨hconsistent, (MsgViewer.keep_maxMsgs m v).trans hmax, ?_, fun d' hd' => ?_⟩
  · rw [hpool, ← hmax]
    exact length_trimLoop _ { v with msgPool := v.msgPool ++ [m] } _ rfl (hmax ▸ hlimit)
  · rw [MsgViewer.keep_msgFilters, hmax] at hd'
    obtain ⟨d, -, rfl⟩ := List.mem_map.1 hd'
    have hdrop : (d.msgs.drop (d.msgs.length - limit)).length ≤ limit := by
      rw [List.length_drop]
      omega
    unfold MsgViewer.keepTab
    dsimp only
    split_ifs
    · rw [List.length_append, List.length_singleton]
      omega
    · exact hdrop.trans (Nat.le_succ _)

theorem bounded_step {v v' : MsgViewer M} {b : ViewerAct M} (hlimit : 0 < limit)
    (h : Bounded obj limit v) (hok : Selects b) (hs : MsgViewer.step obj fold b v = some v') :
    Bounded obj limit v' := by
  have hconsistent := MsgViewer.consistent_step fold h.consistent hs
  cases b with
  | onNewMsg m =>
    rw [← Option.some_inj.1 hs] at hconsistent ⊢
    rw [MsgViewer.onNewMsg_eq] at hconsistent ⊢
    have hnew : MsgViewer.Same v { v with nMsgs := v.nMsgs + 1 } := ⟨rfl, rfl, rfl, rfl, rfl⟩
    have hthr := (h.of_same hnew).of_same (MsgViewer.msgThrottled_same (obj m) _)
    split_ifs at hconsistent ⊢
    · exact hthr
    · exact bounded_keep hlimit hthr hconsistent
  | clear =>
    rw [← Option.some_inj.1 hs] at hconsistent ⊢
    refine ⟨hconsistent, h.maxMsgs, Nat.zero_le _, fun d' hd' => ?_⟩
    obtain ⟨d, -, rfl⟩ := List.mem_map.1 hd'
    exact Nat.zero_le _
  | setFilter addr hosts apps cats =>
    obtain ⟨hhosts, happs, hcats⟩ := hok
    have hnew := MsgViewer.filterMsgs_length addr h.consistent hhosts happs hcats
    rw [← Option.some_inj.1 hs] at hconsistent ⊢
    unfold MsgViewer.setFilter at hconsistent ⊢
    simp only [] at hconsistent ⊢
    split_ifs at hconsistent ⊢
    · exact h
    · exact h
    · refine ⟨hconsistent, h.maxMsgs, h.pool, fun d' hd' => ?_⟩
      rcases List.mem_append.1 hd' with hd' | hd'
      · exact h.tabs d' hd'
      · rw [List.mem_singleton.1 hd']
        exact (hnew.trans h.pool).trans (Nat.le_succ _)
  | tabCloseRequested i =>
    rw [← Option.some_inj.1 hs] at hconsistent ⊢
    unfold MsgViewer.tabCloseRequested at hconsistent ⊢
    split_ifs at hconsistent ⊢
    · exact h
    · exact ⟨hconsistent, h.maxMsgs, h.pool,
        fun d hd => h.tabs d ((List.eraseIdx_sublist _ _).subset hd)⟩
  | setSuppression l i status =>
    refine Option.some_inj.1 hs ▸ h.of_same ?_
    cases l <;> exact ⟨rfl, rfl, rfl, rfl, rfl⟩
  | setThrottling l i status =>
    refine Option.some_inj.1 hs ▸ h.of_same ?_
    cases l <;> exact ⟨rfl, rfl, rfl, rfl, rfl⟩

theorem maxDeletedMsgs_step {a : DlgAct M} (hs : step obj fold a s = some s') :
    s'.maxDeletedMsgs = s.maxDeletedMsgs := by
  cases a with
  | onNewMsg m =>
    rw [← Option.some_inj.1 hs, onNewMsg_eq]
    split_ifs
    · rfl
    · rw [(redrawn_kept fold m _).maxDeletedMsgs, indexed, trimMsgPool_eq]
      simp only []
      split_ifs <;> rfl
  | clear => exact Option.some_inj.1 hs ▸ rfl
  | setFilter addr hosts apps cats =>
    rw [← Option.some_inj.1 hs]
    rcases setFilter_cases obj addr hosts apps cats s with
      ⟨-, j, -, hdraw⟩ | ⟨f, d, t, j, -, rfl, -, hdraw⟩
    · exact hdraw.maxDeletedMsgs
    · exact hdraw.maxDeletedMsgs
  | setCurrentIndex i =>
    obtain ⟨j, -, hdraw⟩ := setCurrentIndex_cases obj i s
    exact Option.some_inj.1 hs ▸ hdraw.maxDeletedMsgs
  | tabCloseRequested i =>
    rw [← Option.some_inj.1 hs]
    rcases tabCloseRequested_cases obj i s with ⟨hsame, -⟩ | ⟨-, -, hclose⟩
    · rw [hsame]
    · obtain ⟨j, hdraw⟩ := redrawn_removeTab obj i s
      rw [hclose]
      exact hdraw.maxDeletedMsgs
  | setSev sev => exact Option.some_inj.1 hs ▸ (redrawn_setSev obj sev s).maxDeletedMsgs
  | moveSlider sev => exact Option.some_inj.1 hs ▸ (redrawn_moveSlider obj sev s).maxDeletedMsgs
  | shortMode => exact Option.some_inj.1 hs ▸ (redrawn_toggleShortMode obj s).maxDeletedMsgs
  | setSuppression l i status => exact Option.some_inj.1 hs ▸ rfl
  | setThrottling l i status => exact Option.some_inj.1 hs ▸ rfl

/-! ## Closing the current tab -/

omit [DecidableEq M] in
theorem display_setThresh_of_ne (sev : SevCode) (h : s.currentIndex ≠ i) :
    (s.setThresh sev).display i = s.display i := by
  unfold setThresh display
  simp only [List.getD_eq_getElem?_getD, List.getElem?_modify, if_neg h]
  cases s.displays[i]? <;> rfl

variable (obj) in
omit [DecidableEq M] in
theorem display_displayMsgs_of_ne {j : ℕ} (h : j ≠ i) :
    (s.displayMsgs obj j).display i = s.display i := by
  rw [displayMsgs, display_setDisplay, if_neg fun h' => h h'.1]

variable (obj) in
omit [DecidableEq M] in
theorem display_setSev_of_ne (sev : SevCode) (h : s.currentIndex ≠ i) :
    (s.setSev obj sev).display i = s.display i := by
  have hslider := display_setThresh_of_ne (s := { s.setThresh sev with vsSeverity := sev }) sev h
  unfold setSev
  simp only []
  split_ifs
  · exact display_setThresh_of_ne sev h
  · exact (display_displayMsgs_of_ne obj h).trans (hslider.trans (display_setThresh_of_ne sev h))

omit [DecidableEq M] in
/-- The tab bar's new current tab is drawn, and no other one. -/
theorem display_changeCurrent_of_ne {j : ℕ} (h : j ≠ i) :
    (s.changeCurrent obj j).display i = s.display i := by
  have hdraw := display_displayMsgs_of_ne obj (s := { s with currentIndex := j }) h
  have hset := display_setSev_of_ne obj
    (s := { ({ s with currentIndex := j } : MsgViewerDlg M).displayMsgs obj j with
      lcdDisplayedMsgs :=
        ((({ s with currentIndex := j } : MsgViewerDlg M).displayMsgs obj j).display j).nDisplayMsgs })
    ((({ s with currentIndex := j } : MsgViewerDlg M).displayMsgs obj j).display j).sevThresh
    (i := i) h
  exact hset.trans hdraw

omit [DecidableEq M] in
/-- The current tab is closed and another one follows. The dialog draws the closed tab, so the next
one is shown as it was when it was last current. -/
theorem display_next_closed (h : Tabbed received s) (hi : s.currentIndex = i) (hzero : i ≠ 0)
    (hnext : i + 1 < s.displays.length) :
    (s.tabCloseRequested obj i).currentIndex = i ∧
      (s.tabCloseRequested obj i).display i = s.display (i + 1) ∧
      (s.tabCloseRequested obj i).msgs i = s.msgs (i + 1) := by
  have hlength := h.length
  rcases tabCloseRequested_cases obj i s with ⟨-, hnone⟩ | ⟨-, -, hclose⟩
  · omega
  have hremove : s.removeTab obj i = s.changeCurrent obj i := by
    rw [removeTab, if_pos hi.symm, show min i (s.displays.length - 2) = i by omega]
  have hdraw := redrawn_changeCurrent obj i s
  rw [hclose, hremove]
  refine ⟨hdraw.currentIndex, ?_, ?_⟩
  · refine (getD_eraseIdx ..).trans ?_
    rw [if_neg (lt_irrefl i)]
    exact display_changeCurrent_of_ne (Nat.succ_ne_self i).symm
  · rw [msgs_tabCloseRequested (s := s.changeCurrent obj i) hzero rfl, if_neg (lt_irrefl i)]
    unfold msgs
    rw [hdraw.viewer]

end MsgViewerDlg

variable [DecidableEq M]

open MsgViewerDlg

/-- Whatever happened, every tab has a display and the last messages it received, and the current
tab exists. -/
theorem tabs_match {conf : ViewerConf} {maxDeleted : ℕ} {w : DlgRun M}
    (h : Reaches (DlgRun.step obj fold) (.init obj conf maxDeleted) w) :
    Tabbed w.received w.dlg := by
  refine h.invariant (I := fun w => Tabbed w.received w.dlg)
    (inStep_init obj conf maxDeleted).toTabbed fun a w w' hI _ hs => ?_
  obtain ⟨s', hs', rfl⟩ := Option.map_eq_some_iff.1 hs
  exact tabbed_step hI hs'

/-- The tab that is current is closed before the last: its place is taken by the next one. -/
theorem tabs_match_closed : ∃ w : DlgRun Bool,
    w.dlg.currentIndex = 1 ∧ w.dlg.displays.length = 2 ∧ Tabbed w.received w.dlg := by
  have h : Reaches (DlgRun.step twoMsgs id) (.init twoMsgs {} 1) _ := reaches_exec
    [.onNewMsg false, .onNewMsg true, .setFilter Bool.toNat [['x']] [] [],
      .setFilter Bool.toNat [['y']] [] [], .setCurrentIndex 1, .tabCloseRequested 1] rfl
  exact ⟨_, rfl, rfl, tabs_match h⟩

/-- A run of the dialog is a run of its viewer. -/
theorem viewer_reaches {ok : ViewerAct M → MsgViewer M → Prop} {conf : ViewerConf}
    {maxDeleted : ℕ} {w : DlgRun M}
    (h : Run (DlgRun.step obj fold) (fun a w => ∀ b, viewerAct a = some b → ok b w.dlg.viewer)
      (.init obj conf maxDeleted) w) :
    Run (MsgViewer.step obj fold) ok (MsgViewer.parseConf conf) w.dlg.viewer := by
  have hinit : Run (MsgViewer.step obj fold) ok (MsgViewer.parseConf conf)
      (DlgRun.init obj conf maxDeleted).dlg.viewer := .refl
  refine h.invariant (I := fun w => Run _ ok (MsgViewer.parseConf conf) w.dlg.viewer) hinit
    fun a w w' hI hok hs => ?_
  obtain ⟨s', hs', rfl⟩ := Option.map_eq_some_iff.1 hs
  rcases viewer_step hs' with ⟨b, hb, hv⟩ | ⟨-, hv⟩
  · exact hI.next (hok b hb) hv
  · exact hv.symm ▸ hI

/-- As long as the dialog is not cleared, its number displays show the viewer's counts, so they add
up to the messages received. -/
theorem lcds_shown {conf : ViewerConf} {maxDeleted : ℕ} {w : DlgRun M}
    (h : Run (DlgRun.step obj fold) (fun a _ => a ≠ .clear) (.init obj conf maxDeleted) w) :
    w.dlg.lcds = counts w.dlg.viewer ∧
      w.dlg.lcdMsgs = w.dlg.lcdSuppressionCount + w.dlg.lcdThrottlingCount +
        w.dlg.lcdDeletedCount + w.dlg.viewer.msgPool.length := by
  have hlcds : w.dlg.lcds = counts w.dlg.viewer := by
    refine h.invariant (I := fun w => w.dlg.lcds = counts w.dlg.viewer) rfl
      fun a w w' hI hok hs => ?_
    obtain ⟨s', hs', rfl⟩ := Option.map_eq_some_iff.1 hs
    exact lcds_step hI hok hs'
  have hviewer := MsgViewer.msgs_accounted fold
    (viewer_reaches (h.mono fun _ _ _ _ _ => trivial))
  refine ⟨hlcds, ?_⟩
  simp only [lcds, counts, Prod.mk.injEq] at hlcds
  obtain ⟨hmsgs, hdeleted, hsup, hthr⟩ := hlcds
  rw [hmsgs, hdeleted, hsup, hthr, hviewer]

theorem lcds_shown_two : ∃ w : DlgRun Bool, w.dlg.lcds = (2, 1, 0, 0) ∧
    w.dlg.lcdMsgs = w.dlg.lcdSuppressionCount + w.dlg.lcdThrottlingCount +
      w.dlg.lcdDeletedCount + w.dlg.viewer.msgPool.length := by
  have h₁ : Run (DlgRun.step twoMsgs id) (fun a _ => a ≠ .clear)
      (.init twoMsgs { maxMessageBufferSize := 1 } 1) _ :=
    Run.next .refl (a := .onNewMsg false) (fun h => nomatch h) rfl
  have h₂ := h₁.next (a := .onNewMsg true) (fun h => nomatch h) rfl
  exact ⟨_, rfl, (lcds_shown h₂).2⟩

/-- Where both limits are set, the text of the current tab is bounded by them: `displayMsgs` clears
the text when too many of its messages were deleted. -/
theorem text_bounded {conf : ViewerConf} {maxDeleted : ℕ} {w : DlgRun M}
    (h : Run (DlgRun.step obj fold)
      (fun a w => Closes a w.dlg ∧ ∀ b, viewerAct a = some b → Selects b)
      (.init obj conf maxDeleted) w)
    (hmsgs : 0 < conf.maxMessageBufferSize) (hdeleted : 0 < maxDeleted) :
    (w.dlg.display w.dlg.currentIndex).nDisplayMsgs ≤
        maxDeleted + conf.maxMessageBufferSize + 1 ∧
      (w.dlg.display w.dlg.currentIndex).txtDisplay.length ≤
        2 * (maxDeleted + conf.maxMessageBufferSize + 1) := by
  have hin := DlgRun.inStep (h.mono fun _ _ hok => hok.1)
  have hrun : Run (MsgViewer.step obj fold) (fun b _ => Selects b) (MsgViewer.parseConf conf)
      w.dlg.viewer := viewer_reaches (h.mono fun _ _ hok => hok.2)
  have hbound : Bounded obj conf.maxMessageBufferSize w.dlg.viewer :=
    hrun.invariant (I := Bounded obj conf.maxMessageBufferSize)
      ⟨MsgViewer.consistent_parseConf conf, rfl, Nat.zero_le _, fun d hd => by
        rw [List.mem_singleton.1 hd]
        exact Nat.zero_le _⟩
      fun _ _ _ hI hok hs => bounded_step hmsgs hI hok hs
  have hconst : w.dlg.maxDeletedMsgs = maxDeleted := by
    refine h.invariant (I := fun w => w.dlg.maxDeletedMsgs = maxDeleted) rfl
      fun a w w' hI _ hs => ?_
    obtain ⟨s', hs', rfl⟩ := Option.map_eq_some_iff.1 hs
    exact (maxDeletedMsgs_step hs').trans hI
  have hgone := hin.deleted (hconst.symm ▸ hdeleted)
  rw [hconst] at hgone
  obtain ⟨gone, hshows, -⟩ := hin.shows
  generalize w.dlg.display w.dlg.currentIndex = d at hgone hshows ⊢
  have htab : (w.dlg.msgs w.dlg.currentIndex).length ≤ conf.maxMessageBufferSize + 1 := by
    unfold msgs
    cases hf : w.dlg.viewer.msgFilters[w.dlg.currentIndex]? with
    | none => exact Nat.zero_le _
    | some f => exact hbound.tabs f (List.mem_of_getElem? hf)
  have hshown : (d.shown obj (gone ++ w.dlg.msgs w.dlg.currentIndex)).length ≤
      maxDeleted + conf.maxMessageBufferSize + 1 := by
    have hlast : (d.shown obj (w.dlg.msgs w.dlg.currentIndex)).length ≤ _ :=
      List.length_filter_le _ _
    rw [hshows.deleted] at hgone
    rw [TabDisplay.shown_append, List.length_append]
    omega
  refine ⟨?_, ?_⟩
  · rw [hshows.count]
    exact_mod_cast hshown
  · rw [hshows.text]
    exact (TabDisplay.length_blocks_le _ _ _).trans (Nat.mul_le_mul_left 2 hshown)

/-- With limits of one the text is drawn anew at the third message. -/
theorem text_bounded_three : ∃ w : DlgRun Bool,
    (w.dlg.display w.dlg.currentIndex).nDisplayMsgs = 3 ∧
      (w.dlg.display w.dlg.currentIndex).nDisplayMsgs ≤ (1 : ℕ) + (1 : ℕ) + 1 := by
  have h₁ : Run (DlgRun.step twoMsgs id)
      (fun a w => Closes a w.dlg ∧ ∀ b, viewerAct a = some b → Selects b)
      (.init twoMsgs { maxMessageBufferSize := 1 } 1) _ :=
    Run.next .refl (a := .onNewMsg false) ⟨trivial, fun b hb => Option.some_inj.1 hb ▸ trivial⟩ rfl
  have h₂ := h₁.next (a := .onNewMsg true)
    ⟨trivial, fun b hb => Option.some_inj.1 hb ▸ trivial⟩ rfl
  have h₃ := h₂.next (a := .onNewMsg true)
    ⟨trivial, fun b hb => Option.some_inj.1 hb ▸ trivial⟩ rfl
  exact ⟨_, rfl, (text_bounded h₃ Nat.zero_lt_one Nat.zero_lt_one).1⟩

end MfExtensions
