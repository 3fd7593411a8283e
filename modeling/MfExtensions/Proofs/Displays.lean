import Mathlib.Data.List.GetD
import MfExtensions.Proofs.Drawing

/-!
# The current tab shows its messages

Every action keeps a dialog in step but for one: a tab that is closed and is neither the last nor
after the current one (`displays_in_step`). The tab bar says that another tab is current when it has
lost the closed tab and the dialog's own list has not, so the dialog then draws the wrong one.
-/

namespace MfExtensions

open Machine

variable {M : Type} {obj : M → QtMfMsg}

namespace MsgViewerDlg

variable {s : MsgViewerDlg M} {received : List (List M)} {i : ℕ}

/-! ## The tabs -/

theorem getD_eraseIdx {α : Type} (l : List α) (d : α) (i j : ℕ) :
    (l.eraseIdx i).getD j d = l.getD (if j < i then j else j + 1) d := by
  rw [List.getD_eq_getElem?_getD, List.getD_eq_getElem?_getD, List.getElem?_eraseIdx]
  split_ifs <;> rfl

theorem msgs_tabCloseRequested {t : MsgViewerDlg M} (hi : i ≠ 0)
    (ht : t.viewer = s.viewer.tabCloseRequested i) (j : ℕ) :
    t.msgs j = s.msgs (if j < i then j else j + 1) := by
  unfold msgs
  rw [ht]
  unfold MsgViewer.tabCloseRequested
  split_ifs with hnone hj hj
  · rfl
  · rw [List.getElem?_eq_none (by omega), List.getElem?_eq_none (by omega)]
  · rw [List.getElem?_eraseIdx_of_lt hj]
  · rw [List.getElem?_eraseIdx_of_ge (not_lt.1 hj)]

/-- A tab goes, and another one is current. -/
theorem tabbed_eraseIdx {j : ℕ} (h : Tabbed received s) (hi : i ≠ 0)
    (hj : j < (s.displays.eraseIdx i).length) (hindex : s.currentIndex = j) :
    Tabbed (received.eraseIdx i) { s with
      viewer := s.viewer.tabCloseRequested i, displays := s.displays.eraseIdx i } := by
  have hlength := h.length
  refine ⟨?_, hindex.trans_lt hj, ?_, fun j => ?_⟩
  · show (s.displays.eraseIdx i).length = (s.viewer.tabCloseRequested i).msgFilters.length
    unfold MsgViewer.tabCloseRequested
    split_ifs with hnone
    · rw [List.eraseIdx_of_length_le (by omega), hlength]
    · rw [not_or, not_le] at hnone
      rw [List.length_eraseIdx_of_lt hnone.2, List.length_eraseIdx_of_lt (by omega), hlength]
  · show _ = (s.displays.eraseIdx i).length
    rw [List.length_eraseIdx, List.length_eraseIdx, h.count]
  · rw [msgs_tabCloseRequested (s := s) hi rfl, getD_eraseIdx]
    exact h.suffix _

/-- A tab after the current one goes. -/
theorem InStep.eraseIdx (h : InStep obj received s) (hi : s.currentIndex < i) :
    InStep obj (received.eraseIdx i) { s with
      viewer := s.viewer.tabCloseRequested i, displays := s.displays.eraseIdx i } := by
  have hcurrent := h.current
  have hlt : s.currentIndex < (s.displays.eraseIdx i).length := by
    rw [List.length_eraseIdx]
    split_ifs <;> omega
  refine h.of_current (tabbed_eraseIdx h.toTabbed (by omega) hlt rfl) rfl ?_ ?_ ?_ rfl rfl rfl rfl
  · refine (getD_eraseIdx ..).trans ?_
    rw [if_pos hi]
    rfl
  · rw [msgs_tabCloseRequested (s := s) (by omega) rfl, if_pos hi]
  · rw [getD_eraseIdx, if_pos hi]

/-- The tab closed is the last or after the current one. -/
theorem InStep.tabCloseRequested (h : InStep obj received s)
    (hi : i = 0 ∨ s.currentIndex < i ∨ s.viewer.msgFilters.length ≤ i + 1) :
    InStep obj (if i = 0 then received else received.eraseIdx i) (s.tabCloseRequested obj i) := by
  have hcurrent := h.current
  have hlength := h.length
  unfold MsgViewerDlg.tabCloseRequested
  by_cases hzero : i = 0
  · rw [if_pos hzero, if_pos (.inl hzero)]
    exact h
  rw [if_neg hzero]
  by_cases hout : s.viewer.msgFilters.length ≤ i
  · rw [if_pos (.inr hout), List.eraseIdx_of_length_le (by rw [h.count, hlength]; exact hout)]
    exact h
  refine (if_neg (not_or.2 ⟨hzero, hout⟩)).symm ▸ ?_
  rcases lt_or_ge s.currentIndex i with hafter | hlast
  · have hsame : s.removeTab obj i = s := by
      rw [removeTab, if_neg (by omega), if_neg (by omega)]
    rw [hsame]
    exact h.eraseIdx hafter
  · -- the last tab is the current one: the one before it is drawn
    have hprev : s.removeTab obj i = s.changeCurrent obj (i - 1) := by
      rw [removeTab, if_pos (by omega), show min i (s.displays.length - 2) = i - 1 by omega]
    have hdraw := redrawn_tabWidgetCurrentChanged obj (i - 1) { s with currentIndex := i - 1 }
    have hindex : (s.changeCurrent obj (i - 1)).currentIndex = i - 1 := hdraw.currentIndex
    rw [hprev]
    exact (inStep_changeCurrent obj h.toTabbed (by omega)).eraseIdx (by omega)

/-- A tab is added if none has the expression. -/
theorem setFilter_msgFilters {addr : M → ℕ} {hosts apps cats : List Str}
    (hsome : ¬(hosts.isEmpty && apps.isEmpty && cats.isEmpty) = true)
    (hnew : s.viewer.msgFilters.findIdx? (fun d =>
      d.filterExpression = MsgViewer.filterExpression hosts apps cats) = none) :
    ∃ d, (s.viewer.setFilter addr hosts apps cats).msgFilters = s.viewer.msgFilters ++ [d] ∧
      d.msgs = s.viewer.filterMsgs addr hosts apps cats := by
  have hany : ¬(s.viewer.msgFilters.any fun d =>
      d.filterExpression = MsgViewer.filterExpression hosts apps cats) = true := by
    rw [Bool.not_eq_true, List.any_eq_false]
    intro d hd
    rw [Bool.not_eq_true]
    exact List.findIdx?_eq_none_iff.1 hnew d hd
  unfold MsgViewer.setFilter
  simp only []
  rw [if_neg hsome, if_neg hany]
  exact ⟨_, rfl, rfl⟩

theorem setFilter_same {addr : M → ℕ} {hosts apps cats : List Str} {i : ℕ}
    (hold : s.viewer.msgFilters.findIdx? (fun d =>
      d.filterExpression = MsgViewer.filterExpression hosts apps cats) = some i) :
    s.viewer.setFilter addr hosts apps cats = s.viewer := by
  have hany : (s.viewer.msgFilters.any fun d =>
      d.filterExpression = MsgViewer.filterExpression hosts apps cats) = true := by
    rw [← List.findIdx?_isSome, hold]
    rfl
  unfold MsgViewer.setFilter
  simp only []
  rw [if_pos hany, ite_self]

/-- A tab is added with messages it has received. -/
theorem tabbed_append {s' : MsgViewerDlg M} (h : Tabbed received s) {f : MsgFilterDisplay M}
    {d : TabDisplay} (hfilters : s'.viewer.msgFilters = s.viewer.msgFilters ++ [f])
    (hdisplays : s'.displays = s.displays ++ [d]) (hindex : s'.currentIndex = s.currentIndex) :
    Tabbed (received ++ [f.msgs]) s' := by
  have hlength := h.length
  have hcount := h.count
  refine ⟨?_, ?_, ?_, fun i => ?_⟩
  · rw [hdisplays, hfilters, List.length_append, List.length_append, hlength]
    rfl
  · rw [hindex, hdisplays, List.length_append]
    exact Nat.lt_add_right _ h.current
  · rw [hdisplays, List.length_append, List.length_append, hcount]
    rfl
  · unfold msgs
    rw [hfilters, List.getD_eq_getElem?_getD]
    rcases lt_or_ge i s.displays.length with hi | hi
    · rw [List.getElem?_append_left (hlength ▸ hi), List.getElem?_append_left (hcount ▸ hi),
        ← List.getD_eq_getElem?_getD]
      exact h.suffix i
    · rw [List.getElem?_append_right (hlength ▸ hi), List.getElem?_append_right (hcount ▸ hi),
        ← hlength, ← hcount, List.getElem?_singleton, List.getElem?_singleton]
      split_ifs
      · exact List.suffix_rfl
      · exact List.suffix_rfl

theorem InStep.setFilter (h : InStep obj received s) (addr : M → ℕ) (hosts apps cats : List Str) :
    InStep obj (received ++ ((s.viewer.setFilter addr hosts apps cats).msgFilters.drop
      s.viewer.msgFilters.length).map (·.msgs)) (s.setFilter obj addr hosts apps cats) := by
  have hsame : s.viewer.setFilter addr hosts apps cats = s.viewer →
      received ++ ((s.viewer.setFilter addr hosts apps cats).msgFilters.drop
        s.viewer.msgFilters.length).map (·.msgs) = received := fun hsame => by
    rw [hsame, List.drop_length, List.map_nil, List.append_nil]
  by_cases hnone : (hosts.isEmpty && apps.isEmpty && cats.isEmpty) = true
  · have hdlg : s.setFilter obj addr hosts apps cats = s := if_pos hnone
    rw [hsame (if_pos hnone), hdlg]
    exact h
  unfold MsgViewerDlg.setFilter
  simp only []
  rw [if_neg hnone]
  cases hfind : s.viewer.msgFilters.findIdx? fun d =>
      d.filterExpression = MsgViewer.filterExpression hosts apps cats with
  | some d =>
    rw [hsame (setFilter_same hfind)]
    exact h.setCurrentIndex d
  | none =>
    -- the new tab becomes current and is drawn twice
    obtain ⟨f, hfilters, hmsgs⟩ := setFilter_msgFilters hnone hfind
    rw [hfilters, List.drop_left, List.map_singleton]
    set t : MsgViewerDlg M := { s with
      viewer := s.viewer.setFilter addr hosts apps cats
      displays := s.displays ++
        [{ nDisplayMsgs := (s.viewer.filterMsgs addr hosts apps cats).length }] } with ht
    have htabbed : Tabbed (received ++ [f.msgs]) t := tabbed_append h.toTabbed hfilters rfl rfl
    have hlen : t.displays.length = s.displays.length + 1 := List.length_append
    have hset : t.setCurrentIndex obj (t.displays.length - 1) =
        t.changeCurrent obj (t.displays.length - 1) := by
      have hcurrent := h.current
      refine if_pos ⟨by omega, ?_⟩
      show t.displays.length - 1 ≠ s.currentIndex
      omega
    show InStep obj _ ((t.setCurrentIndex obj (t.displays.length - 1)).displayMsgs obj
      ((t.setCurrentIndex obj (t.displays.length - 1)).displays.length - 1))
    rw [hset]
    exact (inStep_changeCurrent obj htabbed (by omega)).displayMsgs _

theorem msgs_clear (i : ℕ) (s : MsgViewerDlg M) : s.clear.msgs i = [] := by
  unfold MsgViewerDlg.clear MsgViewer.clear msgs
  simp only [List.getElem?_map, Option.map_map]
  cases s.viewer.msgFilters[i]? <;> rfl

theorem tabbed_clear (h : Tabbed received s) : Tabbed (received.map fun _ => []) s.clear := by
  refine ⟨?_, ?_, ?_, fun i => ?_⟩
  · exact (List.length_map _).trans (h.length.trans (List.length_map _).symm)
  · exact h.current.trans_eq (List.length_map _).symm
  · exact (List.length_map _).trans (h.count.trans (List.length_map _).symm)
  · rw [msgs_clear]
    exact List.nil_suffix

theorem InStep.clear (h : InStep obj received s) :
    InStep obj (received.map fun _ => []) s.clear := by
  have hdisplay : s.clear.display s.currentIndex = (s.display s.currentIndex).clear :=
    List.getD_map s.displays {} TabDisplay.clear
  refine ⟨tabbed_clear h.toTabbed, ⟨[], ?_, ?_⟩, fun _ => ?_, ?_, ?_⟩
  · show (s.clear.display s.currentIndex).Shows obj s.shortMode [] (s.clear.msgs s.currentIndex)
    rw [hdisplay, msgs_clear]
    exact TabDisplay.shows_clear obj s.shortMode _
  · rw [msgs_clear]
    exact List.nil_suffix
  · exact (congrArg TabDisplay.nDisplayedDeletedMsgs hdisplay).trans_le (Int.natCast_nonneg _)
  · exact (congrArg TabDisplay.nDisplayMsgs hdisplay).symm
  · exact h.slider.trans (congrArg TabDisplay.sevThresh hdisplay).symm

/-! ## Messages -/

theorem toInt_le (n : ℕ) : toInt n ≤ n := by
  have hmod : (n : ℤ) % (2 ^ 32 : ℕ) ≤ n := by omega
  unfold toInt Int.bmod
  simp only []
  split_ifs
  · exact hmod
  · omega

variable [DecidableEq M]

/-- The tabs after `trim_msg_pool`, before the current one is drawn. -/
def trimDisplays (obj : M → QtMfMsg) (s : MsgViewerDlg M) : MsgViewerDlg M :=
  { s with
    viewer := s.viewer.trimMsgPool obj
    displays := List.zipWith (fun f d => (d.trim obj s.viewer.maxMsgs f.msgs).2)
      s.viewer.msgFilters s.displays }

theorem trimMsgPool_eq (s : MsgViewerDlg M) : s.trimMsgPool obj =
    let t := s.trimDisplays obj
    let t := if 0 < t.maxDeletedMsgs ∧
        toInt t.maxDeletedMsgs < (t.display t.currentIndex).nDisplayedDeletedMsgs then
      t.displayMsgs obj t.currentIndex else t
    { t with
      lcdDisplayedDeleted := (t.display t.currentIndex).nDisplayedDeletedMsgs
      lcdDeletedCount := t.viewer.nDeleted } := rfl

theorem msgFilters_trimMsgPool (s : MsgViewer M) : (s.trimMsgPool obj).msgFilters =
    s.msgFilters.map fun d => { d with msgs := d.msgs.drop (d.msgs.length - s.maxMsgs) } := by
  have htrim : (s.trimLoop obj s.msgPool {}).1.maxMsgs = s.maxMsgs ∧
      (s.trimLoop obj s.msgPool {}).1.msgFilters = s.msgFilters :=
    MsgViewer.trimLoop_tabs s.msgPool s {}
  unfold MsgViewer.trimMsgPool
  simp only [htrim.1, htrim.2]

theorem msgs_trimDisplays (i : ℕ) (s : MsgViewerDlg M) : (s.trimDisplays obj).msgs i =
    (s.msgs i).drop ((s.msgs i).length - s.viewer.maxMsgs) := by
  unfold trimDisplays msgs
  simp only [msgFilters_trimMsgPool, List.getElem?_map, Option.map_map]
  cases s.viewer.msgFilters[i]? with
  | none => exact List.drop_nil.symm
  | some f => rfl

variable (obj) in
theorem display_trimDisplays (h : Tabbed received s) (hi : i < s.displays.length) :
    (s.trimDisplays obj).display i =
      ((s.display i).trim obj s.viewer.maxMsgs (s.msgs i)).2 := by
  have hf := List.getElem?_eq_getElem (h.length ▸ hi : i < s.viewer.msgFilters.length)
  have hd := List.getElem?_eq_getElem hi
  unfold trimDisplays display msgs
  rw [List.getD_eq_getElem?_getD, List.getD_eq_getElem?_getD,
    List.getElem?_zipWith_eq_some.2 ⟨_, _, hf, hd, rfl⟩, hf, hd]
  rfl

variable (obj) in
theorem tabbed_trimDisplays (h : Tabbed received s) : Tabbed received (s.trimDisplays obj) := by
  have hlength : (s.trimDisplays obj).displays.length = s.displays.length := by
    refine List.length_zipWith.trans ?_
    rw [h.length, min_self]
  have hfilters : (s.trimDisplays obj).viewer.msgFilters.length = s.viewer.msgFilters.length :=
    (congrArg _ (msgFilters_trimMsgPool s.viewer)).trans (List.length_map _)
  refine ⟨?_, ?_, ?_, fun i => ?_⟩
  · rw [hlength, hfilters, h.length]
  · exact h.current.trans_eq hlength.symm
  · exact h.count.trans hlength.symm
  · rw [msgs_trimDisplays]
    exact (List.drop_suffix _ _).trans (h.suffix i)

theorem InStep.trimMsgPool (h : InStep obj received s) :
    InStep obj received (s.trimMsgPool obj) := by
  have ht := tabbed_trimDisplays obj h.toTabbed
  have hmsgs : (s.trimDisplays obj).msgs s.currentIndex = _ := msgs_trimDisplays ..
  have hdisplay := display_trimDisplays obj h.toTabbed h.current
  obtain ⟨hcount, hthresh⟩ := TabDisplay.trim_snd obj s.viewer.maxMsgs
    (s.msgs s.currentIndex) (s.display s.currentIndex)
  rw [← hdisplay] at hcount hthresh
  have hslider : s.vsSeverity = ((s.trimDisplays obj).display s.currentIndex).sevThresh :=
    h.slider.trans hthresh.symm
  rw [trimMsgPool_eq]
  simp only []
  split_ifs with hdeleted
  · have hin := inStep_displayMsgs obj ht hslider
    exact hin.of_current (hin.toTabbed.of rfl rfl hin.current) rfl rfl rfl rfl rfl rfl rfl rfl
  · obtain ⟨gone, hshows, hsuffix⟩ := h.shows
    refine ⟨ht.of rfl rfl ht.current, ?_, fun hmax => ?_, h.lcd.trans hcount.symm, hslider⟩
    · obtain ⟨gone', hshows', hgone⟩ := hshows.trim s.viewer.maxMsgs
      rw [TabDisplay.trim_fst, ← hmsgs, ← hdisplay] at hshows'
      rw [TabDisplay.trim_fst, ← hmsgs] at hgone
      exact ⟨gone', hshows', hgone ▸ hsuffix⟩
    · rw [not_and, not_lt] at hdeleted
      exact (hdeleted hmax).trans (toInt_le _)

/-- What the tabs receive of a message that is kept. -/
def receiveMsg (obj : M → QtMfMsg) (fold : Char → Char) (m : M) (s : MsgViewerDlg M)
    (received : List (List M)) : List (List M) :=
  List.zipWith (fun d ms => if d.shows fold (obj m) then ms ++ [m] else ms) s.viewer.msgFilters
    received

omit [DecidableEq M] in
theorem msgs_keep {t : MsgViewerDlg M} {fold : Char → Char} {m : M} (h : Tabbed received s)
    (ht : t.viewer.msgFilters = s.viewer.msgFilters.map fun d =>
      if d.shows fold (obj m) then { d with msgs := d.msgs ++ [m] } else d) (i : ℕ) :
    ∃ new, t.msgs i = s.msgs i ++ new ∧
      (s.receiveMsg obj fold m received).getD i [] = received.getD i [] ++ new ∧
      new = if (s.viewer.msgFilters[i]?).any (fun d => d.shows fold (obj m)) then [m] else [] := by
  have hlength := h.length
  have hcount := h.count
  unfold msgs receiveMsg
  rw [ht, List.getElem?_map, List.getD_eq_getElem?_getD, List.getD_eq_getElem?_getD]
  rcases lt_or_ge i s.displays.length with hi | hi
  · have hf := List.getElem?_eq_getElem (hlength ▸ hi : i < s.viewer.msgFilters.length)
    have hr := List.getElem?_eq_getElem (hcount ▸ hi : i < received.length)
    rw [List.getElem?_zipWith_eq_some.2 ⟨_, _, hf, hr, rfl⟩, hf, hr]
    refine ⟨_, ?_, ?_, rfl⟩
    · simp only [Option.map_some, Option.getD_some, Option.any_some]
      split_ifs
      · rfl
      · exact (List.append_nil _).symm
    · simp only [Option.getD_some, Option.any_some]
      split_ifs
      · rfl
      · exact (List.append_nil _).symm
  · have hzip : (List.zipWith (fun d ms => if d.shows fold (obj m) then ms ++ [m] else ms)
        s.viewer.msgFilters received)[i]? = none := by
      rw [List.getElem?_eq_none_iff, List.length_zipWith]
      omega
    rw [hzip, List.getElem?_eq_none (hlength ▸ hi : s.viewer.msgFilters.length ≤ i),
      List.getElem?_eq_none (hcount ▸ hi : received.length ≤ i)]
    exact ⟨[], rfl, rfl, rfl⟩

omit [DecidableEq M] in
theorem tabbed_keep {t : MsgViewerDlg M} {fold : Char → Char} {m : M} (h : Tabbed received s)
    (ht : t.viewer.msgFilters = s.viewer.msgFilters.map fun d =>
      if d.shows fold (obj m) then { d with msgs := d.msgs ++ [m] } else d)
    (hdisplays : t.displays = s.displays) (hindex : t.currentIndex = s.currentIndex) :
    Tabbed (s.receiveMsg obj fold m received) t := by
  refine ⟨?_, ?_, ?_, fun i => ?_⟩
  · rw [hdisplays, ht, List.length_map, h.length]
  · rw [hdisplays, hindex]
    exact h.current
  · unfold receiveMsg
    rw [List.length_zipWith, hdisplays, ← h.length, h.count, min_self]
  · obtain ⟨new, hmsgs, hreceived, -⟩ := msgs_keep h ht i
    rw [hmsgs, hreceived]
    exact List.suffix_append_self_iff.2 (h.suffix i)

/-- The tabs that let a message through receive it. -/
def indexed (obj : M → QtMfMsg) (fold : Char → Char) (m : M) (s : MsgViewerDlg M) :
    MsgViewerDlg M :=
  { s with
    viewer := { s.viewer.updateIndex obj m with
      msgFilters := s.viewer.msgFilters.map fun d =>
        if d.shows fold (obj m) then { d with msgs := d.msgs ++ [m] } else d } }

/-- The message is in the index and the tabs, and displayed if the current tab received it. -/
def kept (obj : M → QtMfMsg) (fold : Char → Char) (m : M) (s : MsgViewerDlg M) :
    MsgViewerDlg M :=
  if (s.viewer.msgFilters[s.currentIndex]?).any (fun d => d.shows fold (obj m)) then
    (s.indexed obj fold m).displayMsg obj m s.currentIndex
  else s.indexed obj fold m

/-- The viewer after a message was counted. -/
def counted (obj : M → QtMfMsg) (m : M) (s : MsgViewerDlg M) : MsgViewer M :=
  (MsgViewer.msgThrottled (obj m) { s.viewer with nMsgs := s.viewer.nMsgs + 1 }).2

/-- The dialog with a message in the pool. -/
def pushed (obj : M → QtMfMsg) (m : M) (s : MsgViewerDlg M) : MsgViewerDlg M :=
  { s with
    viewer := { s.counted obj m with msgPool := (s.counted obj m).msgPool ++ [m] }
    lcdMsgs := s.viewer.nMsgs + 1 }

theorem onNewMsg_eq (fold : Char → Char) (m : M) (s : MsgViewerDlg M) : s.onNewMsg obj fold m =
    if (s.viewer.msgThrottled (obj m)).1 then
      { s with
        viewer := s.counted obj m
        lcdMsgs := s.viewer.nMsgs + 1
        lcdSuppressionCount := (s.counted obj m).nSupMsgs
        lcdThrottlingCount := (s.counted obj m).nThrMsgs }
    else ((s.pushed obj m).trimMsgPool obj).kept obj fold m := by
  have hfst : (MsgViewer.msgThrottled (obj m) { s.viewer with nMsgs := s.viewer.nMsgs + 1 }).1 =
      (s.viewer.msgThrottled (obj m)).1 := by
    rw [MsgViewer.msgThrottled_fst, MsgViewer.msgThrottled_fst]
    rfl
  rw [← hfst]
  rfl

omit [DecidableEq M] in
theorem redrawn_displayMsg (m : M) (i : ℕ) (s : MsgViewerDlg M) :
    Redrawn s (s.displayMsg obj m i) := by
  unfold displayMsg
  split_ifs
  · exact redrawn_setDisplay ..
  · exact ⟨rfl, rfl, rfl, rfl, rfl⟩

omit [DecidableEq M] in
theorem redrawn_kept (fold : Char → Char) (m : M) (s : MsgViewerDlg M) :
    Redrawn (s.indexed obj fold m) (s.kept obj fold m) := by
  unfold kept
  split_ifs
  · exact redrawn_displayMsg m _ _
  · exact ⟨rfl, rfl, rfl, rfl, rfl⟩

variable (obj) in
omit [DecidableEq M] in
theorem tabbed_indexed (h : Tabbed received s) (fold : Char → Char) (m : M) :
    Tabbed (s.receiveMsg obj fold m received) (s.indexed obj fold m) :=
  tabbed_keep h rfl rfl rfl

omit [DecidableEq M] in
theorem InStep.kept (h : InStep obj received s) (fold : Char → Char) (m : M) :
    InStep obj (s.receiveMsg obj fold m received) (s.kept obj fold m) := by
  have ht := tabbed_indexed obj h.toTabbed fold m
  obtain ⟨new, hmsgs, hreceived, hnew⟩ :=
    msgs_keep (t := s.indexed obj fold m) h.toTabbed rfl s.currentIndex
  unfold MsgViewerDlg.kept
  split_ifs at hnew ⊢ with hshows
  · subst hnew
    obtain ⟨gone, hd, hsuffix⟩ := h.shows
    have hsuffix' : gone ++ (s.msgs s.currentIndex ++ [m]) <:+
        (s.receiveMsg obj fold m received).getD s.currentIndex [] := by
      rw [hreceived, ← List.append_assoc]
      exact List.suffix_append_self_iff.2 hsuffix
    have happend := hd.append m
    rw [← hmsgs] at happend hsuffix'
    unfold displayMsg
    by_cases hpass : (s.display s.currentIndex).passes (obj m) = true
    · rw [if_pos hpass] at happend
      have hd' : ((s.indexed obj fold m).setDisplay s.currentIndex
          ((s.display s.currentIndex).displayMsg obj s.shortMode m)).display s.currentIndex =
            (s.display s.currentIndex).displayMsg obj s.shortMode m := by
        rw [display_setDisplay, if_pos ⟨rfl, ht.current⟩]
      refine (if_pos hpass).symm ▸ ⟨(redrawn_setDisplay s.currentIndex _ _).tabbed ht,
        ⟨gone, hd'.symm ▸ happend, hsuffix'⟩, fun hmax => ?_, ?_, ?_⟩
      · exact (congrArg TabDisplay.nDisplayedDeletedMsgs hd').trans_le (h.deleted hmax)
      · exact (if_pos rfl).trans (congrArg TabDisplay.nDisplayMsgs hd').symm
      · exact h.slider.trans (congrArg TabDisplay.sevThresh hd').symm
    · rw [if_neg hpass] at happend
      exact (if_neg hpass).symm ▸ ⟨ht, ⟨gone, happend, hsuffix'⟩, h.deleted, h.lcd, h.slider⟩
  · rw [hnew, List.append_nil] at hmsgs hreceived
    exact h.of_current ht rfl rfl hmsgs hreceived rfl rfl rfl rfl

omit [DecidableEq M] in
/-- The viewer changes, but not its tabs. -/
theorem InStep.viewer (h : InStep obj received s) {v : MsgViewer M}
    (hv : v.msgFilters = s.viewer.msgFilters) : InStep obj received { s with viewer := v } := by
  refine h.of_current (h.toTabbed.of hv rfl h.current) rfl rfl ?_ rfl rfl rfl rfl rfl
  unfold msgs
  rw [hv]

theorem viewer_trimMsgPool (s : MsgViewerDlg M) :
    (s.trimMsgPool obj).viewer = s.viewer.trimMsgPool obj := by
  rw [trimMsgPool_eq]
  simp only []
  split_ifs <;> rfl

variable (obj) in
omit [DecidableEq M] in
theorem counted_same (m : M) (s : MsgViewerDlg M) : MsgViewer.Same s.viewer (s.counted obj m) :=
  have h := MsgViewer.msgThrottled_same (obj m) { s.viewer with nMsgs := s.viewer.nMsgs + 1 }
  ⟨h.maxMsgs, h.msgPool, h.msgs, h.lw, h.msgFilters⟩

/-- A tab lets a message through or not, whatever messages it has. -/
theorem receiveMsg_trimMsgPool (fold : Char → Char) (m : M) (received : List (List M))
    (s : MsgViewerDlg M) : ((s.pushed obj m).trimMsgPool obj).receiveMsg obj fold m received =
      s.receiveMsg obj fold m received := by
  have hfilters : (s.pushed obj m).viewer.msgFilters = s.viewer.msgFilters :=
    (counted_same obj m s).msgFilters
  unfold receiveMsg
  rw [viewer_trimMsgPool, msgFilters_trimMsgPool, List.zipWith_map_left, hfilters]
  rfl

theorem InStep.onNewMsg (h : InStep obj received s) (fold : Char → Char) (m : M) :
    InStep obj (if (s.viewer.msgThrottled (obj m)).1 then received
      else s.receiveMsg obj fold m received) (s.onNewMsg obj fold m) := by
  have hfilters := (counted_same obj m s).msgFilters
  rw [onNewMsg_eq]
  split_ifs
  · have hin := h.viewer hfilters
    exact hin.of_current (hin.toTabbed.of rfl rfl hin.current) rfl rfl rfl rfl rfl rfl rfl rfl
  · have hin : InStep obj received (s.pushed obj m) := by
      refine h.of_current (h.toTabbed.of hfilters rfl h.current) rfl rfl ?_ rfl rfl rfl rfl rfl
      unfold msgs pushed
      simp only [hfilters]
    rw [← receiveMsg_trimMsgPool]
    exact hin.trimMsgPool.kept fold m

/-! ## Runs -/

/-- A tab is closed only if it is the last or after the current one. -/
def Closes : DlgAct M → MsgViewerDlg M → Prop
  | .tabCloseRequested i, s =>
    i = 0 ∨ s.currentIndex < i ∨ s.viewer.msgFilters.length ≤ i + 1
  | _, _ => True

variable {fold : Char → Char}

theorem inStep_step {a : DlgAct M} {s' : MsgViewerDlg M} (h : InStep obj received s)
    (hok : Closes a s) (hs : step obj fold a s = some s') :
    InStep obj (s.receive obj fold a received) s' := by
  cases a with
  | onNewMsg m => exact Option.some_inj.1 hs ▸ h.onNewMsg fold m
  | clear => exact Option.some_inj.1 hs ▸ h.clear
  | setFilter addr hosts apps cats =>
    exact Option.some_inj.1 hs ▸ h.setFilter addr hosts apps cats
  | setCurrentIndex i => exact Option.some_inj.1 hs ▸ h.setCurrentIndex i
  | tabCloseRequested i => exact Option.some_inj.1 hs ▸ h.tabCloseRequested hok
  | setSev sev => exact Option.some_inj.1 hs ▸ h.setSev sev
  | moveSlider sev => exact Option.some_inj.1 hs ▸ h.moveSlider sev
  | shortMode => exact Option.some_inj.1 hs ▸ h.toggleShortMode
  | setSuppression l i status =>
    refine Option.some_inj.1 hs ▸ h.viewer ?_
    cases l <;> rfl
  | setThrottling l i status =>
    refine Option.some_inj.1 hs ▸ h.viewer ?_
    cases l <;> rfl

omit [DecidableEq M] in
variable (obj) in
theorem inStep_init (conf : ViewerConf) (maxDeleted : ℕ) :
    InStep obj [[]] (init (M := M) obj conf maxDeleted) := by
  refine inStep_changeSeverity obj ⟨rfl, Nat.zero_lt_one, rfl, fun i => ?_⟩ _
  cases i <;> exact List.nil_suffix

end MsgViewerDlg

variable [DecidableEq M] {fold : Char → Char}

theorem DlgRun.inStep {conf : ViewerConf} {maxDeleted : ℕ} {w : DlgRun M}
    (h : Run (DlgRun.step obj fold) (fun a w => MsgViewerDlg.Closes a w.dlg)
      (.init obj conf maxDeleted) w) : MsgViewerDlg.InStep obj w.received w.dlg := by
  refine h.invariant (I := fun w => MsgViewerDlg.InStep obj w.received w.dlg)
    (MsgViewerDlg.inStep_init obj conf maxDeleted) fun a w w' hI hok hs => ?_
  obtain ⟨s', hs', rfl⟩ := Option.map_eq_some_iff.1 hs
  exact MsgViewerDlg.inStep_step hI hok hs'

/-- In a run that closes no tab before the last at or before the current one, the current tab shows
the last messages it received, as far as they pass its threshold: those it has and some that it had
before. The number display and the slider agree with it. -/
theorem displays_in_step {conf : ViewerConf} {maxDeleted : ℕ} {w : DlgRun M}
    (h : Run (DlgRun.step obj fold) (fun a w => MsgViewerDlg.Closes a w.dlg)
      (.init obj conf maxDeleted) w) :
    let d := w.dlg.display w.dlg.currentIndex
    ∃ gone, gone ++ w.dlg.msgs w.dlg.currentIndex <:+ w.received.getD w.dlg.currentIndex [] ∧
      d.txtDisplay = TabDisplay.blocks obj w.dlg.shortMode
        (d.shown obj (gone ++ w.dlg.msgs w.dlg.currentIndex)) ∧
      w.dlg.lcdDisplayedMsgs = (d.shown obj (gone ++ w.dlg.msgs w.dlg.currentIndex)).length ∧
      d.nDisplayedDeletedMsgs = (d.shown obj gone).length ∧
      (0 < w.dlg.maxDeletedMsgs → (d.shown obj gone).length ≤ w.dlg.maxDeletedMsgs) ∧
      w.dlg.vsSeverity = d.sevThresh := by
  have hin := DlgRun.inStep h
  obtain ⟨gone, hshows, hgone⟩ := hin.shows
  refine ⟨gone, hgone, hshows.text, hin.lcd.trans hshows.count, hshows.deleted, fun hmax => ?_,
    hin.slider⟩
  have hdeleted := hin.deleted hmax
  rw [hshows.deleted] at hdeleted
  exact_mod_cast hdeleted

/-- Two messages, a tab for one of the hosts, and the tab closed again. -/
theorem displays_in_step_closed : ∃ w : DlgRun Bool,
    w.received = [[false, true]] ∧ w.dlg.lcdDisplayedMsgs = 2 ∧
      ∃ gone, (w.dlg.display 0).txtDisplay = TabDisplay.blocks twoMsgs false
        ((w.dlg.display 0).shown twoMsgs (gone ++ [false, true])) := by
  have h₁ : Run (DlgRun.step twoMsgs id) (fun a w => MsgViewerDlg.Closes a w.dlg)
      (.init twoMsgs {} 1) _ := Run.next .refl (a := .onNewMsg false) trivial rfl
  have h₂ := h₁.next (a := .onNewMsg true) trivial rfl
  have h₃ := h₂.next (a := .setFilter Bool.toNat [['x']] [] []) trivial rfl
  have h₄ := h₃.next (a := .setCurrentIndex 0) trivial rfl
  have h₅ := h₄.next (a := .tabCloseRequested 1) (.inr (.inl Nat.zero_lt_one)) rfl
  obtain ⟨gone, -, htext, -⟩ := displays_in_step h₅
  exact ⟨_, rfl, rfl, gone, htext⟩

end MfExtensions
