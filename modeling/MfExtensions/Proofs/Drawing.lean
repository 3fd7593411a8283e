import MfExtensions.Proofs.ShownTab
import MfExtensions.Proofs.ViewerCounts

/-!
# Drawing the current tab

A dialog is in step if its current tab shows its messages, the slider stands at the tab's threshold
and the number display at the tab's count (`InStep`). To draw the current tab puts a dialog in step
(`inStep_displayMsgs`), and so do a change of the severity, of the mode and of the current tab, as
each of them ends in drawing it (`InStep.setSev`, `InStep.toggleShortMode`,
`inStep_changeCurrent`).
-/

namespace MfExtensions

variable {M : Type} {obj : M → QtMfMsg}

namespace MsgViewerDlg

variable {s : MsgViewerDlg M} {received : List (List M)} {i : ℕ}

/-- Each tab has a display and the last messages it received, and one of the tabs is current. -/
structure Tabbed (received : List (List M)) (s : MsgViewerDlg M) : Prop where
  length : s.displays.length = s.viewer.msgFilters.length
  current : s.currentIndex < s.displays.length
  count : received.length = s.displays.length
  suffix : ∀ i, s.msgs i <:+ received.getD i []

/-- The current tab shows its messages, after messages that it received before them; the slider
stands at its threshold and the number display at its count. -/
structure InStep (obj : M → QtMfMsg) (received : List (List M)) (s : MsgViewerDlg M) : Prop
    extends Tabbed received s where
  shows : ∃ gone, (s.display s.currentIndex).Shows obj s.shortMode gone (s.msgs s.currentIndex) ∧
    gone ++ s.msgs s.currentIndex <:+ received.getD s.currentIndex []
  deleted : 0 < s.maxDeletedMsgs →
    (s.display s.currentIndex).nDisplayedDeletedMsgs ≤ s.maxDeletedMsgs
  lcd : s.lcdDisplayedMsgs = (s.display s.currentIndex).nDisplayMsgs
  slider : s.vsSeverity = (s.display s.currentIndex).sevThresh

theorem display_setDisplay (i j : ℕ) (d : TabDisplay) (s : MsgViewerDlg M) :
    (s.setDisplay i d).display j =
      if i = j ∧ i < s.displays.length then d else s.display j := by
  unfold setDisplay display
  rw [List.getD_eq_getElem?_getD, List.getD_eq_getElem?_getD, List.getElem?_set]
  by_cases hij : i = j
  · subst hij
    by_cases hi : i < s.displays.length
    · rw [if_pos rfl, if_pos hi, if_pos ⟨rfl, hi⟩, Option.getD_some]
    · rw [if_pos rfl, if_neg hi, if_neg fun h => hi h.2, List.getElem?_eq_none (not_lt.1 hi)]
  · rw [if_neg hij, if_neg fun h => hij h.1]

theorem Tabbed.of {s' : MsgViewerDlg M} (h : Tabbed received s)
    (hfilters : s'.viewer.msgFilters = s.viewer.msgFilters)
    (hlength : s'.displays.length = s.displays.length)
    (hcurrent : s'.currentIndex < s.displays.length) : Tabbed received s' where
  length := by rw [hlength, hfilters, h.length]
  current := hcurrent.trans_eq hlength.symm
  count := h.count.trans hlength.symm
  suffix := fun i => by
    unfold msgs
    rw [hfilters]
    exact h.suffix i

/-! ## What drawing keeps -/

/-- The number displays of what was received, deleted, suppressed and throttled. -/
def lcds (s : MsgViewerDlg M) : ℤ × ℤ × ℤ × ℤ :=
  (s.lcdMsgs, s.lcdDeletedCount, s.lcdSuppressionCount, s.lcdThrottlingCount)

/-- The messages and the tabs are the same, and the same tab is current. -/
structure Redrawn (s s' : MsgViewerDlg M) : Prop where
  viewer : s'.viewer = s.viewer
  length : s'.displays.length = s.displays.length
  currentIndex : s'.currentIndex = s.currentIndex
  maxDeletedMsgs : s'.maxDeletedMsgs = s.maxDeletedMsgs
  lcds : s'.lcds = s.lcds

theorem Redrawn.trans {s' s'' : MsgViewerDlg M} (h : Redrawn s s') (h' : Redrawn s' s'') :
    Redrawn s s'' :=
  ⟨h'.viewer.trans h.viewer, h'.length.trans h.length, h'.currentIndex.trans h.currentIndex,
    h'.maxDeletedMsgs.trans h.maxDeletedMsgs, h'.lcds.trans h.lcds⟩

theorem Redrawn.tabbed {s' : MsgViewerDlg M} (h : Redrawn s s') (ht : Tabbed received s) :
    Tabbed received s' :=
  ht.of (congrArg _ h.viewer) h.length (h.currentIndex.trans_lt ht.current)

theorem redrawn_setDisplay (i : ℕ) (d : TabDisplay) (s : MsgViewerDlg M) :
    Redrawn s (s.setDisplay i d) := ⟨rfl, List.length_set .., rfl, rfl, rfl⟩

variable (obj) in
theorem redrawn_displayMsgs (i : ℕ) (s : MsgViewerDlg M) : Redrawn s (s.displayMsgs obj i) :=
  redrawn_setDisplay ..

theorem redrawn_setThresh (sev : SevCode) (s : MsgViewerDlg M) : Redrawn s (s.setThresh sev) :=
  ⟨rfl, List.length_modify .., rfl, rfl, rfl⟩

variable (obj) in
theorem redrawn_setSev (sev : SevCode) (s : MsgViewerDlg M) : Redrawn s (s.setSev obj sev) := by
  have hthresh := redrawn_setThresh sev s
  unfold setSev
  simp only []
  split_ifs
  · exact hthresh
  · have hslider : Redrawn s { s.setThresh sev with vsSeverity := sev } :=
      ⟨hthresh.viewer, hthresh.length, hthresh.currentIndex, hthresh.maxDeletedMsgs, hthresh.lcds⟩
    exact (hslider.trans (redrawn_setThresh sev _)).trans (redrawn_displayMsgs obj _ _)

variable (obj) in
theorem redrawn_tabWidgetCurrentChanged (i : ℕ) (s : MsgViewerDlg M) :
    Redrawn s (s.tabWidgetCurrentChanged obj i) := by
  have hdraw := redrawn_displayMsgs obj i s
  have hcount : Redrawn s { s.displayMsgs obj i with
      lcdDisplayedMsgs := ((s.displayMsgs obj i).display i).nDisplayMsgs } :=
    ⟨hdraw.viewer, hdraw.length, hdraw.currentIndex, hdraw.maxDeletedMsgs, hdraw.lcds⟩
  exact hcount.trans (redrawn_setSev obj _ _)

/-! ## Drawing the current tab -/

variable (obj) in
theorem display_displayMsgs (h : Tabbed received s) :
    (s.displayMsgs obj s.currentIndex).display s.currentIndex =
      (s.display s.currentIndex).displayMsgs obj s.shortMode (s.msgs s.currentIndex) := by
  rw [displayMsgs, display_setDisplay, if_pos ⟨rfl, h.current⟩]

variable (obj) in
/-- To draw the current tab puts the dialog in step. -/
theorem inStep_displayMsgs (h : Tabbed received s)
    (hslider : s.vsSeverity = (s.display s.currentIndex).sevThresh) :
    InStep obj received (s.displayMsgs obj s.currentIndex) := by
  have hd := display_displayMsgs obj h
  refine ⟨(redrawn_displayMsgs obj _ s).tabbed h, ⟨[], ?_, h.suffix _⟩, fun _ => ?_, ?_, ?_⟩
  · exact hd ▸ TabDisplay.shows_displayMsgs obj s.shortMode _ _
  · exact (congrArg TabDisplay.nDisplayedDeletedMsgs hd).trans_le (Int.natCast_nonneg _)
  · exact (if_pos rfl).trans (congrArg TabDisplay.nDisplayMsgs hd).symm
  · exact hslider.trans (congrArg TabDisplay.sevThresh hd).symm

/-- Nothing changes that the current tab's display depends on. -/
theorem InStep.of_current {s' : MsgViewerDlg M} {received' : List (List M)}
    (h : InStep obj received s) (htabbed : Tabbed received' s')
    (hindex : s'.currentIndex = s.currentIndex)
    (hdisplay : s'.display s.currentIndex = s.display s.currentIndex)
    (hmsgs : s'.msgs s.currentIndex = s.msgs s.currentIndex)
    (hreceived : received'.getD s.currentIndex [] = received.getD s.currentIndex [])
    (hshort : s'.shortMode = s.shortMode) (hmax : s'.maxDeletedMsgs = s.maxDeletedMsgs)
    (hlcd : s'.lcdDisplayedMsgs = s.lcdDisplayedMsgs) (hslider : s'.vsSeverity = s.vsSeverity) :
    InStep obj received' s' := by
  refine ⟨htabbed, ?_, ?_, ?_, ?_⟩
  · rw [hindex, hdisplay, hmsgs, hshort, hreceived]
    exact h.shows
  · rw [hindex, hdisplay, hmax]
    exact h.deleted
  · rw [hindex, hdisplay, hlcd]
    exact h.lcd
  · rw [hindex, hdisplay, hslider]
    exact h.slider

/-- Any tab is drawn. -/
theorem InStep.displayMsgs (h : InStep obj received s) (i : ℕ) :
    InStep obj received (s.displayMsgs obj i) := by
  by_cases hi : i = s.currentIndex
  · rw [hi]
    exact inStep_displayMsgs obj h.toTabbed h.slider
  · refine h.of_current ((redrawn_displayMsgs obj i s).tabbed h.toTabbed) rfl ?_ rfl rfl rfl rfl
      (if_neg hi) rfl
    rw [MsgViewerDlg.displayMsgs, display_setDisplay, if_neg fun h => hi h.1]

/-! ## The severity -/

theorem display_setThresh (h : Tabbed received s) (sev : SevCode) :
    (s.setThresh sev).display s.currentIndex =
      { s.display s.currentIndex with sevThresh := sev } := by
  unfold setThresh display
  simp only [List.getD_eq_getElem?_getD, List.getElem?_modify, if_true,
    List.getElem?_eq_getElem h.current]
  rfl

variable (obj) in
/-- The severity is set to one the slider does not stand at, or to the one of the tab. -/
theorem inStep_setSev (h : Tabbed received s) (sev : SevCode)
    (hstep : s.vsSeverity = sev → InStep obj received s) :
    InStep obj received (s.setSev obj sev) := by
  have hthresh := (redrawn_setThresh sev s).tabbed h
  unfold setSev
  simp only []
  by_cases hsev : s.vsSeverity = sev
  · have hin := hstep hsev
    have hd := display_setThresh h sev
    rw [← hsev, hin.slider] at hd
    refine (if_pos hsev).symm ▸ hin.of_current hthresh rfl ?_ rfl rfl rfl rfl rfl rfl
    rw [← hsev, hin.slider]
    exact hd
  · -- the slider moves and draws the tab
    have ht : Tabbed received { s.setThresh sev with vsSeverity := sev } :=
      hthresh.of rfl rfl hthresh.current
    refine (if_neg hsev).symm ▸ inStep_displayMsgs obj ((redrawn_setThresh sev _).tabbed ht) ?_
    exact (congrArg TabDisplay.sevThresh (display_setThresh ht sev)).symm

theorem InStep.setSev (h : InStep obj received s) (sev : SevCode) :
    InStep obj received (s.setSev obj sev) := inStep_setSev obj h.toTabbed sev fun _ => h

theorem setSev_slider (h : Tabbed received s) (sev : SevCode) : (s.setSev obj sev).vsSeverity =
    ((s.setSev obj sev).display (s.setSev obj sev).currentIndex).sevThresh := by
  by_cases hsev : s.vsSeverity = sev
  · have heq : s.setSev obj sev = s.setThresh sev := if_pos hsev
    rw [heq]
    exact hsev.trans (congrArg TabDisplay.sevThresh (display_setThresh h sev)).symm
  · exact (inStep_setSev obj h sev fun h => absurd h hsev).slider

variable (obj) in
theorem inStep_changeSeverity (h : Tabbed received s) (sev : SevCode) :
    InStep obj received (s.changeSeverity obj sev) := by
  have hset := redrawn_setSev obj sev s
  have hin := inStep_displayMsgs obj (hset.tabbed h) (setSev_slider h sev)
  rw [hset.currentIndex] at hin
  exact hin

theorem InStep.moveSlider (h : InStep obj received s) (sev : SevCode) :
    InStep obj received (s.moveSlider obj sev) := by
  unfold MsgViewerDlg.moveSlider
  split_ifs
  · exact h
  · exact inStep_changeSeverity (s := { s with vsSeverity := sev }) obj
      (h.toTabbed.of rfl rfl h.current) sev

/-! ## The mode -/

/-- The tabs are drawn one after the other, the current one among them. -/
theorem inStep_draw : ∀ (is : List ℕ) {s : MsgViewerDlg M}, Tabbed received s →
    s.vsSeverity = (s.display s.currentIndex).sevThresh →
    InStep obj received s ∨ s.currentIndex ∈ is →
    InStep obj received (is.foldl (fun s i => s.displayMsgs obj i) s)
  | [], s, h, hslider, hdrawn => hdrawn.resolve_right List.not_mem_nil
  | i :: is, s, h, hslider, hdrawn => by
    have ht := (redrawn_displayMsgs obj i s).tabbed h
    rw [List.foldl_cons]
    by_cases hi : i = s.currentIndex
    · have hin : InStep obj received (s.displayMsgs obj i) := hi ▸ inStep_displayMsgs obj h hslider
      exact inStep_draw is ht hin.slider (.inl hin)
    · refine inStep_draw is ht ?_ ?_
      · refine hslider.trans ?_
        rw [MsgViewerDlg.displayMsgs, display_setDisplay, if_neg fun h => hi h.1]
        rfl
      · rcases hdrawn with hin | hmem
        · exact .inl (hin.displayMsgs i)
        · exact .inr ((List.mem_cons.1 hmem).resolve_left (Ne.symm hi))

theorem InStep.toggleShortMode (h : InStep obj received s) :
    InStep obj received (s.toggleShortMode obj) :=
  inStep_draw _ (s := { s with shortMode := !s.shortMode }) (h.toTabbed.of rfl rfl h.current)
    h.slider (.inr (List.mem_range.2 h.current))

/-! ## The tabs -/

variable (obj) in
/-- The current tab is drawn, and the slider moves to its threshold. -/
theorem inStep_tabWidgetCurrentChanged (h : Tabbed received s) :
    InStep obj received (s.tabWidgetCurrentChanged obj s.currentIndex) := by
  have hd := display_displayMsgs obj h
  have hthresh : ((s.displayMsgs obj s.currentIndex).display s.currentIndex).sevThresh =
      (s.display s.currentIndex).sevThresh := by
    rw [hd]
    rfl
  have hdraw := (redrawn_displayMsgs obj s.currentIndex s).tabbed h
  have ht : Tabbed received { s.displayMsgs obj s.currentIndex with
      lcdDisplayedMsgs :=
        ((s.displayMsgs obj s.currentIndex).display s.currentIndex).nDisplayMsgs } :=
    hdraw.of rfl rfl hdraw.current
  refine inStep_setSev obj ht _ fun hslider => ?_
  have hin := inStep_displayMsgs obj h (hslider.trans hthresh)
  exact hin.of_current ht rfl rfl rfl rfl rfl rfl hin.lcd.symm rfl

variable (obj) in
theorem inStep_changeCurrent (h : Tabbed received s) (hi : i < s.displays.length) :
    InStep obj received (s.changeCurrent obj i) :=
  inStep_tabWidgetCurrentChanged obj (s := { s with currentIndex := i }) (h.of rfl rfl hi)

theorem InStep.setCurrentIndex (h : InStep obj received s) (i : ℕ) :
    InStep obj received (s.setCurrentIndex obj i) := by
  unfold MsgViewerDlg.setCurrentIndex
  split_ifs with hi
  · exact inStep_changeCurrent obj h.toTabbed hi.1
  · exact h

end MsgViewerDlg

end MfExtensions
