import MfExtensions.Cell
import MfExtensions.Domain

/-!
# The hitmap of a condition

`ma_hitmap`: an index for every source and target name seen, and a cell for every pair of
indices. The array has extents `srcCap × tgtCap`; `cells` outside them are cells not built yet.
-/

namespace MfExtensions

/-- What a captured message changed. -/
structure Change where
  status : Bool
  source : Bool
  target : Bool

structure Hitmap where
  srcIdx : IdxMap := OrdMap.empty
  tgtIdx : IdxMap := OrdMap.empty
  srcCap : ℕ := 20
  tgtCap : ℕ := 20
  cells : ℕ → ℕ → Cell := fun _ _ => {}

namespace Hitmap

def globalS : String := "__S_GLOBAL__"

def globalT : String := "__T_GLOBAL__"

def capIncrement : ℕ := 20

def reset (h : Hitmap) : Hitmap :=
  { h with
    srcIdx := OrdMap.empty
    tgtIdx := OrdMap.empty
    cells := fun s t => if s < h.srcCap ∧ t < h.tgtCap then (h.cells s t).reset else h.cells s t }

/-- The index of `name`, or of the global name when names are not distinguished, entering it if
it is new: the map, the index and whether it is new. -/
def findIndex (per : Bool) (glob : String) (idx : IdxMap) (name : String) :
    IdxMap × ℕ × Bool :=
  if !per then
    if idx.isEmpty then (idx.insert glob 0, 0, true) else (idx, 0, false)
  else
    match idx.find? name with
    | none => (idx.insert name idx.size, idx.size, true)
    | some i => (idx, i, false)

/-- `multi_array::resize`: the elements there keep their value, the new ones are new cells. -/
def resize (h : Hitmap) (srcCap tgtCap : ℕ) : Hitmap :=
  { h with
    srcCap
    tgtCap
    cells := fun s t => if s < h.srcCap ∧ t < h.tgtCap then h.cells s t else {} }

def setCell (h : Hitmap) (s t : ℕ) (x : Cell) : Hitmap :=
  { h with cells := fun s' t' => if s' = s ∧ t' = t then x else h.cells s' t' }

/-- Enter the names and make room for their cell: the hitmap, the indices and whether each name
is new. -/
def locate (k : CondConfig) (src tgt : String) (h : Hitmap) : Hitmap × (ℕ × Bool) × (ℕ × Bool) :=
  let (srcIdx, s, sNew) := findIndex k.perSource globalS h.srcIdx src
  let (tgtIdx, t, tNew) := findIndex k.perTarget globalT h.tgtIdx tgt
  let srcCap := if s ≥ h.srcCap then h.srcCap + capIncrement else h.srcCap
  let tgtCap := if t ≥ h.tgtCap then h.tgtCap + capIncrement else h.tgtCap
  let h' := { h with srcIdx, tgtIdx }
  (if s ≥ h.srcCap ∨ t ≥ h.tgtCap then h'.resize srcCap tgtCap else h', (s, sNew), (t, tNew))

/-- A timing event of one condition: its time and the cell. -/
abbrev CellEvent := ℤ × ℕ × ℕ

/-- The hitmap after the message, what changed, and the event to schedule. -/
def capture (k : CondConfig) (msg : Msg) (src tgt : String) (what : Smatch) (h : Hitmap) :
    Option (Hitmap × Change × Option CellEvent) :=
  let (h', (s, sNew), (t, tNew)) := h.locate k src tgt
  match (h'.cells s t).hit k msg what with
  | none => none
  | some (x, te, flipped) =>
    some (h'.setCell s t x, ⟨flipped, sNew, tNew⟩, te.map fun te => (te, s, t))

def event (k : CondConfig) (s t : ℕ) (ts : ℤ) (h : Hitmap) : Hitmap × Bool :=
  let (x, flipped) := (h.cells s t).event k ts
  (h.setCell s t x, flipped)

/-- `get_sources` and `get_targets`. -/
def args (h : Hitmap) (a : ArgT) : IdxMap := if a = .source then h.srcIdx else h.tgtIdx

/-- `find_source` and `find_target`. -/
def findArg (h : Hitmap) (name : String) (a : ArgT) : ℤ :=
  match (h.args a).find? name with
  | none => dNil
  | some i => i

/-- The name of an index in a map, the first name for `D_ANY`. -/
def nameOf (nilMsg : String) (idx : IdxMap) (i : ℤ) : Except Err String :=
  match idx.entries with
  | [] => .error .assertion
  | e :: _ =>
    if i = dNil then .error (.runtime nilMsg)
    else if i = dAny then .ok e.1
    else if idx.size ≤ unsigned i then .error .assertion
    else
      match idx.entries.find? fun e => e.2 = unsigned i with
      | some e => .ok e.1
      | none => .error (.runtime "get_source: idx not found")

def source (h : Hitmap) (v : CondDomain) : Except Err String :=
  nameOf "get_source: nil idx" h.srcIdx v.1

def target (h : Hitmap) (v : CondDomain) : Except Err String :=
  nameOf "get_target: nil idx" h.tgtIdx v.2

/-- The cell `get_message` and `get_message_group` read: `D_ANY` is index 0. -/
def cellOf (h : Hitmap) (v : CondDomain) : Except Err Cell :=
  if h.srcIdx.isEmpty || h.tgtIdx.isEmpty then .error .assertion
  else if condDomainIsNull v then .error (.runtime "get_message: nil idx")
  else
    let s := if v.1 = dAny then 0 else v.1
    let t := if v.2 = dAny then 0 else v.2
    .ok (h.cells s.toNat t.toNat)

def message (h : Hitmap) (v : CondDomain) : Except Err String := do
  (← h.cellOf v).latestMessage

def messageGroup (texts : Texts) (h : Hitmap) (v : CondDomain) (g : ℕ) : Except Err String := do
  (← h.cellOf v).messageGroup texts g

/-- `get_status` of one cell. -/
def status (h : Hitmap) (v : CondDomain) : Bool := (h.cells v.1.toNat v.2.toNat).on

/-- `get_cond_range`: the first and the last source and target index of a domain. -/
def condRange (h : Hitmap) (d : CondDomain) : Except Err (CondRange × CondRange) :=
  if condDomainIsNull d then .error (.runtime "get_cond_range: NIL domain")
  else .ok (if d.1 = dAny then (0, (h.srcIdx.size : ℤ) - 1) else (d.1, d.1),
    if d.2 = dAny then (0, (h.tgtIdx.size : ℤ) - 1) else (d.2, d.2))

/-- The indices of a loop from the first to the last. -/
def indices (r : CondRange) : List ℤ :=
  (List.range (r.2 - r.1 + 1).toNat).map fun (i : ℕ) => r.1 + i

/-- `get_alarm_count`: the messages of the cells of a domain, or its sources or targets with a
cell that is on. -/
def alarmCount (h : Hitmap) (v : CondDomain) (arg : ArgT) : Except Err ℤ := do
  let (src, tgt) ← h.condRange v
  let cell s t := h.cells s.toNat t.toNat
  if arg = .none then
    return ((indices src).map fun s => ((indices tgt).map fun t =>
      ((cell s t).msgs.length : ℤ)).sum).sum
  else if arg = .source then
    return ((indices src).filter fun s => (indices tgt).any fun t => (cell s t).on).length
  else
    return ((indices tgt).filter fun t => (indices src).any fun s => (cell s t).on).length

end Hitmap

end MfExtensions
