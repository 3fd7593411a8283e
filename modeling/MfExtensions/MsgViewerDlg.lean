import MfExtensions.MsgViewer

/-!
# What the viewer's dialog shows

The part of `msgViewerDlg` that `MsgViewer` leaves out: the text area, the counts and the severity
threshold of each tab, the current tab, the slider and the number displays. A `MsgFilterDisplay` of
the source is a `MsgFilterDisplay` of the viewer and the `TabDisplay` at the same index. The
selection in the lists, the search, the scroll bars and the settings are left out; `renderMode` is
too, as its button is disabled.
-/

namespace MfExtensions

/-- What a tab shows of its messages. -/
structure TabDisplay where
  nDisplayMsgs : ℤ := 0
  nDisplayedDeletedMsgs : ℤ := 0
  /-- the blocks inserted into the text area since it was cleared -/
  txtDisplay : List Str := []
  sevThresh : SevCode := .info

namespace TabDisplay

/-- The test of `displayMsg`, `displayMsgs` and `trim_msg_pool`. -/
def passes (msg : QtMfMsg) (d : TabDisplay) : Bool := d.sevThresh.toNat ≤ msg.sev.toNat

/-- `UpdateTextAreaDisplay`: each text is a block, and a blank one follows in the long mode. -/
def updateTextArea (shortMode : Bool) (texts : List Str) (area : List Str) : List Str :=
  texts.foldl (fun area text => area ++ [text] ++ if shortMode then [] else [[]]) area

variable {M : Type} (obj : M → QtMfMsg)

/-- `displayMsg`, of a message that passes. -/
def displayMsg (shortMode : Bool) (m : M) (d : TabDisplay) : TabDisplay :=
  { d with
    nDisplayMsgs := d.nDisplayMsgs + 1
    txtDisplay := updateTextArea shortMode [(obj m).text' shortMode] d.txtDisplay }

def displayMsgs (shortMode : Bool) (msgs : List M) (d : TabDisplay) : TabDisplay :=
  let shown := msgs.filter fun m => d.passes (obj m)
  { d with
    nDisplayMsgs := shown.length
    nDisplayedDeletedMsgs := 0
    txtDisplay := updateTextArea shortMode (shown.map fun m => (obj m).text' shortMode) [] }

/-- The loop that takes messages from the front of a tab with more than `maxMsgs`. -/
def trim (maxMsgs : ℕ) : List M → TabDisplay → List M × TabDisplay
  | [], d => ([], d)
  | m :: msgs, d =>
    if maxMsgs < (m :: msgs).length then
      trim maxMsgs msgs
        (if d.passes (obj m) then
          { d with nDisplayedDeletedMsgs := d.nDisplayedDeletedMsgs + 1 }
        else d)
    else (m :: msgs, d)

/-- `clear`. -/
def clear (d : TabDisplay) : TabDisplay :=
  { d with nDisplayMsgs := 0, nDisplayedDeletedMsgs := 0, txtDisplay := [] }

end TabDisplay

structure MsgViewerDlg (M : Type) where
  viewer : MsgViewer M
  displays : List TabDisplay := [{}]
  maxDeletedMsgs : ℕ
  shortMode : Bool := false
  /-- `tabWidget->currentIndex()` -/
  currentIndex : ℕ := 0
  vsSeverity : SevCode := .debug
  lcdMsgs : ℤ := 0
  lcdDisplayedMsgs : ℤ := 0
  lcdDisplayedDeleted : ℤ := 0
  lcdDeletedCount : ℤ := 0
  lcdSuppressionCount : ℤ := 0
  lcdThrottlingCount : ℤ := 0

namespace MsgViewerDlg

variable {M : Type} (obj : M → QtMfMsg)

/-- The messages of a tab. -/
def msgs (i : ℕ) (s : MsgViewerDlg M) : List M := ((s.viewer.msgFilters[i]?).map (·.msgs)).getD []

def display (i : ℕ) (s : MsgViewerDlg M) : TabDisplay := s.displays.getD i {}

/-- What `displayMsg` and `displayMsgs` make of a tab. -/
def setDisplay (i : ℕ) (d : TabDisplay) (s : MsgViewerDlg M) : MsgViewerDlg M :=
  { s with
    displays := s.displays.set i d
    lcdDisplayedMsgs := if i = s.currentIndex then d.nDisplayMsgs else s.lcdDisplayedMsgs }

def displayMsg (m : M) (i : ℕ) (s : MsgViewerDlg M) : MsgViewerDlg M :=
  if (s.display i).passes (obj m) then
    s.setDisplay i ((s.display i).displayMsg obj s.shortMode m)
  else s

def displayMsgs (i : ℕ) (s : MsgViewerDlg M) : MsgViewerDlg M :=
  s.setDisplay i ((s.display i).displayMsgs obj s.shortMode (s.msgs i))

def updateDisplays (s : MsgViewerDlg M) : MsgViewerDlg M :=
  (List.range s.displays.length).foldl (fun s i => s.displayMsgs obj i) s

/-! ## The severity -/

def setThresh (sev : SevCode) (s : MsgViewerDlg M) : MsgViewerDlg M :=
  { s with
    displays := s.displays.modify s.currentIndex fun d => { d with sevThresh := sev } }

/-- `setSevError`, `setSevWarning`, `setSevInfo` and `setSevDebug`. The slider calls
`changeSeverity` if its value changes, and not again. -/
def setSev (sev : SevCode) (s : MsgViewerDlg M) : MsgViewerDlg M :=
  let s := s.setThresh sev
  if s.vsSeverity = sev then s
  else
    let s := { s with vsSeverity := sev }
    (s.setThresh sev).displayMsgs obj s.currentIndex

def changeSeverity (sev : SevCode) (s : MsgViewerDlg M) : MsgViewerDlg M :=
  (s.setSev obj sev).displayMsgs obj s.currentIndex

/-- The slider is moved. -/
def moveSlider (sev : SevCode) (s : MsgViewerDlg M) : MsgViewerDlg M :=
  if s.vsSeverity = sev then s else ({ s with vsSeverity := sev }).changeSeverity obj sev

def toggleShortMode (s : MsgViewerDlg M) : MsgViewerDlg M :=
  ({ s with shortMode := !s.shortMode }).updateDisplays obj

/-! ## The tabs -/

def tabWidgetCurrentChanged (newTab : ℕ) (s : MsgViewerDlg M) : MsgViewerDlg M :=
  let s := s.displayMsgs obj newTab
  let s := { s with lcdDisplayedMsgs := (s.display newTab).nDisplayMsgs }
  s.setSev obj (s.display newTab).sevThresh

/-- The tab bar has another current tab and says so. -/
def changeCurrent (i : ℕ) (s : MsgViewerDlg M) : MsgViewerDlg M :=
  ({ s with currentIndex := i }).tabWidgetCurrentChanged obj i

/-- `tabWidget->setCurrentIndex`. -/
def setCurrentIndex (i : ℕ) (s : MsgViewerDlg M) : MsgViewerDlg M :=
  if i < s.displays.length ∧ i ≠ s.currentIndex then s.changeCurrent obj i else s

/-- `tabWidget->removeTab`: the tab to the right of the current one takes its place, or else the
last. The tab bar counts the tabs that are left, the dialog still has all of them. -/
def removeTab (i : ℕ) (s : MsgViewerDlg M) : MsgViewerDlg M :=
  if i = s.currentIndex then s.changeCurrent obj (min i (s.displays.length - 2))
  else if i < s.currentIndex then s.changeCurrent obj (s.currentIndex - 1)
  else s

def tabCloseRequested (tabIndex : ℕ) (s : MsgViewerDlg M) : MsgViewerDlg M :=
  if tabIndex = 0 ∨ s.viewer.msgFilters.length ≤ tabIndex then s
  else
    let s := s.removeTab obj tabIndex
    { s with
      viewer := s.viewer.tabCloseRequested tabIndex
      displays := s.displays.eraseIdx tabIndex }

/-- `setFilter` with the selected hosts, applications and categories. -/
def setFilter (addr : M → ℕ) (hostFilter appFilter catFilter : List Str) (s : MsgViewerDlg M) :
    MsgViewerDlg M :=
  if hostFilter.isEmpty && appFilter.isEmpty && catFilter.isEmpty then s
  else
    let expression := MsgViewer.filterExpression hostFilter appFilter catFilter
    match s.viewer.msgFilters.findIdx? fun d => d.filterExpression = expression with
    | some d => s.setCurrentIndex obj d
    | none =>
      let result := s.viewer.filterMsgs addr hostFilter appFilter catFilter
      let s : MsgViewerDlg M := { s with
        viewer := s.viewer.setFilter addr hostFilter appFilter catFilter
        displays := s.displays ++ [{ nDisplayMsgs := result.length }] }
      let s := s.setCurrentIndex obj (s.displays.length - 1)
      s.displayMsgs obj (s.displays.length - 1)

/-! ## Messages -/

/-- `static_cast<int>` of a `size_t`. -/
def toInt (n : ℕ) : ℤ := (n : ℤ).bmod (2 ^ 32)

variable [DecidableEq M]

def trimMsgPool (s : MsgViewerDlg M) : MsgViewerDlg M :=
  let displays := List.zipWith (fun f d => (d.trim obj s.viewer.maxMsgs f.msgs).2)
    s.viewer.msgFilters s.displays
  let s := { s with viewer := s.viewer.trimMsgPool obj, displays }
  let s :=
    if 0 < s.maxDeletedMsgs ∧
        toInt s.maxDeletedMsgs < (s.display s.currentIndex).nDisplayedDeletedMsgs then
      s.displayMsgs obj s.currentIndex
    else s
  { s with
    lcdDisplayedDeleted := (s.display s.currentIndex).nDisplayedDeletedMsgs
    lcdDeletedCount := s.viewer.nDeleted }

variable (fold : Char → Char)

def onNewMsg (m : M) (s : MsgViewerDlg M) : MsgViewerDlg M :=
  let viewer : MsgViewer M := { s.viewer with nMsgs := s.viewer.nMsgs + 1 }
  let s := { s with lcdMsgs := viewer.nMsgs }
  let (throttled, viewer) := viewer.msgThrottled (obj m)
  if throttled then
    { s with
      viewer
      lcdSuppressionCount := viewer.nSupMsgs
      lcdThrottlingCount := viewer.nThrMsgs }
  else
    let s := { s with viewer := { viewer with msgPool := viewer.msgPool ++ [m] } }
    let s := s.trimMsgPool obj
    let viewer := s.viewer.updateIndex obj m
    let s := { s with
      viewer := { viewer with
        msgFilters := viewer.msgFilters.map fun d =>
          if d.shows fold (obj m) then { d with msgs := d.msgs ++ [m] } else d } }
    -- only the current tab is displayed
    if (viewer.msgFilters[s.currentIndex]?).any fun d => d.shows fold (obj m) then
      s.displayMsg obj m s.currentIndex
    else s

omit [DecidableEq M] in
/-- `clear`, when it is confirmed. -/
def clear (s : MsgViewerDlg M) : MsgViewerDlg M :=
  { s with
    viewer := s.viewer.clear
    displays := s.displays.map TabDisplay.clear
    lcdMsgs := 0
    lcdDisplayedMsgs := 0 }

/-! ## Runs -/

omit [DecidableEq M] in
/-- The constructor. -/
def init (conf : ViewerConf) (maxDisplayedDeletedMessages : ℕ) : MsgViewerDlg M :=
  let s : MsgViewerDlg M :=
    { viewer := MsgViewer.parseConf conf, maxDeletedMsgs := maxDisplayedDeletedMessages }
  s.changeSeverity obj .info

end MsgViewerDlg

/-- What happens to the dialog and its tabs. -/
inductive DlgAct (M : Type)
  | onNewMsg (m : M)
  | clear
  | setFilter (addr : M → ℕ) (hostFilter appFilter catFilter : List Str)
  | setCurrentIndex (tabIndex : ℕ)
  | tabCloseRequested (tabIndex : ℕ)
  | setSev (sev : SevCode)
  | moveSlider (sev : SevCode)
  | shortMode
  | setSuppression (l : Field) (i : ℕ) (status : Bool)
  | setThrottling (l : Field) (i : ℕ) (status : Bool)

namespace MsgViewerDlg

variable {M : Type} [DecidableEq M] (obj : M → QtMfMsg) (fold : Char → Char)

def step : DlgAct M → MsgViewerDlg M → Option (MsgViewerDlg M)
  | .onNewMsg m, s => some (s.onNewMsg obj fold m)
  | .clear, s => some s.clear
  | .setFilter addr hostFilter appFilter catFilter, s =>
    some (s.setFilter obj addr hostFilter appFilter catFilter)
  | .setCurrentIndex tabIndex, s => some (s.setCurrentIndex obj tabIndex)
  | .tabCloseRequested tabIndex, s => some (s.tabCloseRequested obj tabIndex)
  | .setSev sev, s => some (s.setSev obj sev)
  | .moveSlider sev, s => some (s.moveSlider obj sev)
  | .shortMode, s => some (s.toggleShortMode obj)
  | .setSuppression l i status, s =>
    some { s with viewer := s.viewer.setSuppression l i status }
  | .setThrottling l i status, s =>
    some { s with viewer := s.viewer.setThrottling l i status }

/-- What the tabs receive in a step, `received` being what each of them has received since the
dialog was cleared. -/
def receive (a : DlgAct M) (s : MsgViewerDlg M) (received : List (List M)) : List (List M) :=
  match a with
  | .onNewMsg m =>
    if (s.viewer.msgThrottled (obj m)).1 then received
    else
      List.zipWith (fun d ms => if d.shows fold (obj m) then ms ++ [m] else ms)
        s.viewer.msgFilters received
  | .clear => received.map fun _ => []
  | .setFilter addr hostFilter appFilter catFilter =>
    let tabs := (s.viewer.setFilter addr hostFilter appFilter catFilter).msgFilters
    received ++ (tabs.drop s.viewer.msgFilters.length).map (·.msgs)
  | .tabCloseRequested tabIndex => if tabIndex = 0 then received else received.eraseIdx tabIndex
  | _ => received

end MsgViewerDlg

/-- A dialog, and what its tabs have received since it was cleared. -/
structure DlgRun (M : Type) where
  dlg : MsgViewerDlg M
  received : List (List M)

namespace DlgRun

variable {M : Type} [DecidableEq M] (obj : M → QtMfMsg) (fold : Char → Char)

omit [DecidableEq M] in
def init (conf : ViewerConf) (maxDisplayedDeletedMessages : ℕ) : DlgRun M :=
  ⟨.init obj conf maxDisplayedDeletedMessages, [[]]⟩

def step (a : DlgAct M) (w : DlgRun M) : Option (DlgRun M) :=
  (w.dlg.step obj fold a).map fun s => ⟨s, w.dlg.receive obj fold a w.received⟩

end DlgRun

end MfExtensions
