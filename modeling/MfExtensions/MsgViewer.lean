import Mathlib.Data.List.Lex
import MfExtensions.QtMfMsg
import MfExtensions.Lib.Machine

/-!
# The message viewer

`msgViewerDlg`: the pool of messages, the lists of each host, application and category, the filter
tabs, and what suppresses and throttles messages. A message object is an `M`: `obj` is what it
holds and `addr` where it is stored, which is what `operator<` of two `msg_ptr_t` compares. What
the dialog shows of a tab's messages is left out.
-/

namespace MfExtensions

structure Suppress where
  expr : Regex
  inUse : Bool := true

def Suppress.match' (name : Str) (x : Suppress) : Bool :=
  x.inUse && (x.expr.regexMatch (String.ofList name)).isSome

structure Throttle where
  expr : Regex
  limit : ℤ
  timespan : ℤ
  lastWindowStart : ℤ := 0
  count : ℤ := 0
  inUse : Bool := true

/-- `throttle::reach_limit`, at the second `sec`. -/
def Throttle.reachLimit (name : Str) (sec : ℤ) (x : Throttle) : Bool × Throttle :=
  if !x.inUse then (false, x)
  else if (x.expr.regexMatch (String.ofList name)).isNone then (false, x)
  else if x.limit = 0 then (true, x)
  else if x.limit < 0 then (false, x)
  else if x.timespan ≤ 0 then
    let x := { x with count := x.count + 1 }
    (x.limit < x.count, x)
  else
    let x := if x.timespan < sec - x.lastWindowStart then
        { x with lastWindowStart := sec, count := 1 }
      else { x with count := x.count + 1 }
    (x.limit < x.count, x)

/-- The throttles are asked up to the first that has reached its limit. -/
def reachAny (name : Str) (sec : ℤ) : List Throttle → Bool × List Throttle
  | [] => (false, [])
  | x :: xs =>
    let (limited, x) := x.reachLimit name sec
    if limited then (true, x :: xs)
    else
      let (limited, xs) := reachAny name sec xs
      (limited, x :: xs)

/-- What messages are listed, filtered, suppressed and throttled by. -/
inductive Field
  | host
  | app
  | cat

/-- `msgs_map_t`. -/
abbrev MsgsMap (M : Type) := OrdMap Str (List M)

structure MsgFilterDisplay (M : Type) where
  msgs : List M := []
  hostFilter : List Str := []
  appFilter : List Str := []
  catFilter : List Str := []
  filterExpression : Str := []

structure MsgViewer (M : Type) where
  nMsgs : ℤ := 0
  nSupMsgs : ℤ := 0
  nThrMsgs : ℤ := 0
  nDeleted : ℤ := 0
  maxMsgs : ℕ
  eSupHost : List Suppress := []
  eSupApp : List Suppress := []
  eSupCat : List Suppress := []
  eThrHost : List Throttle := []
  eThrApp : List Throttle := []
  eThrCat : List Throttle := []
  msgPool : List M := []
  hostMsgs : MsgsMap M := .empty
  catMsgs : MsgsMap M := .empty
  appMsgs : MsgsMap M := .empty
  /-- the items of each list of the dialog -/
  lwHost : List Str := []
  lwCategory : List Str := []
  lwApplication : List Str := []
  msgFilters : List (MsgFilterDisplay M) := [{}]

/-- `QStringList::contains` with `Qt::CaseInsensitive`, `fold` being `QChar::toCaseFolded`. -/
def containsFold (fold : Char → Char) (filter : List Str) (s : Str) : Bool :=
  filter.any fun t => t.map fold = s.map fold

/-- The test of `onNewMsg`. -/
def MsgFilterDisplay.shows {M : Type} (fold : Char → Char) (msg : QtMfMsg)
    (d : MsgFilterDisplay M) : Bool :=
  (containsFold fold d.hostFilter msg.host || d.hostFilter.isEmpty) &&
    (containsFold fold d.appFilter msg.app || d.appFilter.isEmpty) &&
    (containsFold fold d.catFilter msg.cat || d.catFilter.isEmpty)

namespace MsgViewer

variable {M : Type}

def msgThrottled (msg : QtMfMsg) (s : MsgViewer M) : Bool × MsgViewer M :=
  let s := { s with nSupMsgs := s.nSupMsgs + 1 }
  if s.eSupHost.any (·.match' msg.host) || s.eSupApp.any (·.match' msg.app) ||
      s.eSupCat.any (·.match' msg.cat) then (true, s)
  else
    let s := { s with nSupMsgs := s.nSupMsgs - 1, nThrMsgs := s.nThrMsgs + 1 }
    let (limited, eThrHost) := reachAny msg.host msg.time s.eThrHost
    let s := { s with eThrHost }
    if limited then (true, s)
    else
      let (limited, eThrApp) := reachAny msg.app msg.time s.eThrApp
      let s := { s with eThrApp }
      if limited then (true, s)
      else
        let (limited, eThrCat) := reachAny msg.cat msg.time s.eThrCat
        let s := { s with eThrCat }
        if limited then (true, s) else (false, { s with nThrMsgs := s.nThrMsgs - 1 })

/-- The items `updateList` fills a list with. -/
def updateList (map : MsgsMap M) : List Str := map.keys

/-- `map[k].push_back(m)`, and the items of the list of the map's keys. -/
def pushMsg (k : Str) (m : M) (map : MsgsMap M) (lw : List Str) : MsgsMap M × List Str :=
  let pushed := (map.insert k []).modify k (· ++ [m])
  if (map.find? k).isNone then (pushed, updateList pushed) else (pushed, lw)

variable [DecidableEq M]

/-- Remove `m` from `map[k]`, and the key if nothing is left: the map, and whether a key is gone. -/
def dropMsg (k : Str) (m : M) (map : MsgsMap M) : MsgsMap M × Bool :=
  let erased := (map.insert k []).modify k (·.erase m)
  if ((erased.find? k).getD []).isEmpty then (erased.erase k, true) else (erased, false)

/-- Whether a key of a map is gone. -/
structure ListUpdate where
  host : Bool := false
  app : Bool := false
  cat : Bool := false

variable (obj : M → QtMfMsg)

/-- A round of the loop of `trim_msg_pool`, `m` being the front of the pool. -/
def trimRound (m : M) (s : MsgViewer M) (u : ListUpdate) : MsgViewer M × ListUpdate :=
  let (catMsgs, cat) := dropMsg (obj m).cat m s.catMsgs
  let (hostMsgs, host) := dropMsg (obj m).host m s.hostMsgs
  let (appMsgs, app) := dropMsg (obj m).app m s.appMsgs
  ({ s with catMsgs, hostMsgs, appMsgs, msgPool := s.msgPool.tail, nDeleted := s.nDeleted + 1 },
    { host := u.host || host, app := u.app || app, cat := u.cat || cat })

/-- The loop over the messages of the pool. -/
def trimLoop : List M → MsgViewer M → ListUpdate → MsgViewer M × ListUpdate
  | [], s, u => (s, u)
  | m :: ms, s, u =>
    if 0 < s.maxMsgs ∧ s.maxMsgs < (m :: ms).length then
      let (s, u) := trimRound obj m s u
      trimLoop ms s u
    else (s, u)

def trimMsgPool (s : MsgViewer M) : MsgViewer M :=
  let (s, u) := trimLoop obj s.msgPool s {}
  { s with
    lwHost := if u.host then updateList s.hostMsgs else s.lwHost
    lwApplication := if u.app then updateList s.appMsgs else s.lwApplication
    lwCategory := if u.cat then updateList s.catMsgs else s.lwCategory
    msgFilters := s.msgFilters.map fun d =>
      { d with msgs := d.msgs.drop (d.msgs.length - s.maxMsgs) } }

omit [DecidableEq M] in
def updateIndex (m : M) (s : MsgViewer M) : MsgViewer M :=
  let (catMsgs, lwCategory) := pushMsg (obj m).cat m s.catMsgs s.lwCategory
  let (hostMsgs, lwHost) := pushMsg (obj m).host m s.hostMsgs s.lwHost
  let (appMsgs, lwApplication) := pushMsg (obj m).app m s.appMsgs s.lwApplication
  { s with catMsgs, lwCategory, hostMsgs, lwHost, appMsgs, lwApplication }

variable (fold : Char → Char)

def onNewMsg (m : M) (s : MsgViewer M) : MsgViewer M :=
  let s := { s with nMsgs := s.nMsgs + 1 }
  let (throttled, s) := s.msgThrottled (obj m)
  if throttled then s
  else
    let s := { s with msgPool := s.msgPool ++ [m] }
    let s := s.trimMsgPool obj
    let s := s.updateIndex obj m
    { s with
      msgFilters := s.msgFilters.map fun d =>
        if d.shows fold (obj m) then { d with msgs := d.msgs ++ [m] } else d }

/-- `clear`, when it is confirmed. -/
def clear (s : MsgViewer M) : MsgViewer M :=
  { s with
    nMsgs := 0, nSupMsgs := 0, nThrMsgs := 0, nDeleted := 0
    msgPool := []
    hostMsgs := .empty, catMsgs := .empty, appMsgs := .empty
    lwApplication := updateList (M := M) .empty
    lwCategory := updateList (M := M) .empty
    lwHost := updateList (M := M) .empty
    msgFilters := s.msgFilters.map fun d => { d with msgs := [] } }

/-! ## Filters -/

variable (addr : M → ℕ)

def listIntersect : List M → List M → List M
  | [], _ => []
  | _ :: _, [] => []
  | x :: xs, y :: ys =>
    if addr x < addr y then listIntersect xs (y :: ys)
    else if addr y < addr x then listIntersect (x :: xs) ys
    else x :: listIntersect xs ys
  termination_by l₁ l₂ => l₁.length + l₂.length

/-- `std::list::merge`: the second list's front comes first if it is the smaller of the two. -/
def merge (l₁ l₂ : List M) : List M := l₁.merge l₂ fun x y => !decide (addr y < addr x)

/-- Merge the lists of the selected keys, one after the other. -/
def mergeKeys (map : MsgsMap M) (filter : List Str) : List M :=
  filter.foldl (fun result k =>
    match map.find? k with
    | some temp => merge addr result temp
    | none => result) []

/-- The messages of a new tab. -/
def filterMsgs (hostFilter appFilter catFilter : List Str) (s : MsgViewer M) : List M :=
  let result := mergeKeys addr s.appMsgs appFilter
  let result :=
    if hostFilter.isEmpty then result
    else
      let hostResult := mergeKeys addr s.hostMsgs hostFilter
      if result.isEmpty then hostResult else listIntersect addr result hostResult
  if catFilter.isEmpty then result
  else
    let catResult := mergeKeys addr s.catMsgs catFilter
    if result.isEmpty then catResult else listIntersect addr result catResult

def filterExpression (hostFilter appFilter catFilter : List Str) : Str :=
  let app := " || ".toList.intercalate appFilter
  let host := " || ".toList.intercalate hostFilter
  let cat := " || ".toList.intercalate catFilter
  let nFilterExpressions :=
    (if app ≠ [] then 1 else 0) + (if host ≠ [] then 1 else 0) + (if cat ≠ [] then 1 else 0)
  if nFilterExpressions = 1 then cat ++ host ++ app
  else
    "(".toList ++ (if cat ≠ [] then cat ++ ") && (".toList else []) ++ host ++
      (if host ≠ [] ∧ app ≠ [] then ") && (".toList else []) ++ app ++ ")".toList

/-- `setFilter` with the selected hosts, applications and categories. -/
def setFilter (hostFilter appFilter catFilter : List Str) (s : MsgViewer M) : MsgViewer M :=
  if hostFilter.isEmpty && appFilter.isEmpty && catFilter.isEmpty then s
  else
    let expression := filterExpression hostFilter appFilter catFilter
    -- the tab with this expression is shown
    if s.msgFilters.any fun d => d.filterExpression = expression then s
    else
      { s with
        msgFilters := s.msgFilters ++ [{
          msgs := s.filterMsgs addr hostFilter appFilter catFilter
          hostFilter, appFilter, catFilter, filterExpression := expression }] }

def tabCloseRequested (tabIndex : ℕ) (s : MsgViewer M) : MsgViewer M :=
  if tabIndex = 0 ∨ s.msgFilters.length ≤ tabIndex then s
  else { s with msgFilters := s.msgFilters.eraseIdx tabIndex }

end MsgViewer

/-! ## Runs -/

namespace MsgViewer

variable {M : Type}

/-- `setSuppression`, of an entry of the menu. -/
def setSuppression (l : Field) (i : ℕ) (status : Bool) (s : MsgViewer M) : MsgViewer M :=
  let use (xs : List Suppress) := xs.modify i fun x => { x with inUse := status }
  match l with
  | .host => { s with eSupHost := use s.eSupHost }
  | .app => { s with eSupApp := use s.eSupApp }
  | .cat => { s with eSupCat := use s.eSupCat }

def setThrottling (l : Field) (i : ℕ) (status : Bool) (s : MsgViewer M) : MsgViewer M :=
  let use (xs : List Throttle) := xs.modify i fun x => { x with inUse := status }
  match l with
  | .host => { s with eThrHost := use s.eThrHost }
  | .app => { s with eThrApp := use s.eThrApp }
  | .cat => { s with eThrCat := use s.eThrCat }

end MsgViewer

/-- A throttle as the configuration gives it. -/
structure ThrottleConf where
  name : Regex
  limit : ℤ := -1
  timespan : ℤ := -1

/-- What `parseConf` reads. -/
structure ViewerConf where
  supHost : List Regex := []
  supApp : List Regex := []
  supCat : List Regex := []
  thrHost : List ThrottleConf := []
  thrApp : List ThrottleConf := []
  thrCat : List ThrottleConf := []
  maxMessageBufferSize : ℕ := 100000

def MsgViewer.parseConf {M : Type} (conf : ViewerConf) : MsgViewer M :=
  let suppress (xs : List Regex) : List Suppress := xs.map fun expr => { expr }
  let throttle (xs : List ThrottleConf) : List Throttle :=
    xs.map fun x => { expr := x.name, limit := x.limit, timespan := x.timespan }
  { eSupHost := suppress conf.supHost, eSupApp := suppress conf.supApp
    eSupCat := suppress conf.supCat
    eThrHost := throttle conf.thrHost, eThrApp := throttle conf.thrApp
    eThrCat := throttle conf.thrCat
    maxMsgs := conf.maxMessageBufferSize }

/-- What happens to the dialog. -/
inductive ViewerAct (M : Type)
  | onNewMsg (m : M)
  | clear
  | setFilter (addr : M → ℕ) (hostFilter appFilter catFilter : List Str)
  | tabCloseRequested (tabIndex : ℕ)
  | setSuppression (l : Field) (i : ℕ) (status : Bool)
  | setThrottling (l : Field) (i : ℕ) (status : Bool)

namespace MsgViewer

variable {M : Type} [DecidableEq M] (obj : M → QtMfMsg) (fold : Char → Char)

def step : ViewerAct M → MsgViewer M → Option (MsgViewer M)
  | .onNewMsg m, s => some (s.onNewMsg obj fold m)
  | .clear, s => some s.clear
  | .setFilter addr hostFilter appFilter catFilter, s =>
    some (s.setFilter addr hostFilter appFilter catFilter)
  | .tabCloseRequested tabIndex, s => some (s.tabCloseRequested tabIndex)
  | .setSuppression l i status, s => some (s.setSuppression l i status)
  | .setThrottling l i status, s => some (s.setThrottling l i status)

end MsgViewer

end MfExtensions
