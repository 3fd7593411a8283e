import MfExtensions.Hitmap

/-!
# The array of a hitmap

`ma_hitmap` with the extents of its array apart from the capacities, every access checked against
them, and the life of a hitmap: messages are captured, scheduled events come back with the indices
they were given, and it is reset. The histories, which nothing reads, are the messages captured
since the last reset with the cells they came to, and the events ever scheduled.
-/

namespace MfExtensions

/-- How a call fails: an access outside the array, or the front of an empty list. -/
inductive AccessErr
  | outside
  | emptyList

structure ArrayHitmap where
  srcIdx : IdxMap := OrdMap.empty
  tgtIdx : IdxMap := OrdMap.empty
  srcCap : ℕ := 20
  tgtCap : ℕ := 20
  /-- the extents of the `multi_array` -/
  extents : ℕ × ℕ := (20, 20)
  cells : ℕ → ℕ → Cell := fun _ _ => {}

namespace ArrayHitmap

/-- `hitmap[s][t]` is an element of the array. -/
def Inside (h : ArrayHitmap) (s t : ℕ) : Prop := s < h.extents.1 ∧ t < h.extents.2

instance (h : ArrayHitmap) (s t : ℕ) : Decidable (h.Inside s t) :=
  inferInstanceAs (Decidable (_ ∧ _))

/-- `hitmap[s][t]`. -/
def cell (h : ArrayHitmap) (s t : ℕ) : Except AccessErr Cell :=
  if h.Inside s t then .ok (h.cells s t) else .error .outside

def setCell (h : ArrayHitmap) (s t : ℕ) (x : Cell) : ArrayHitmap :=
  { h with cells := fun s' t' => if s' = s ∧ t' = t then x else h.cells s' t' }

/-- `hitmap.resize(boost::extents[src_cap][tgt_cap])`. -/
def resize (h : ArrayHitmap) : ArrayHitmap :=
  { h with
    extents := (h.srcCap, h.tgtCap)
    cells := fun s t => if h.Inside s t then h.cells s t else {} }

def reset (h : ArrayHitmap) : ArrayHitmap :=
  { h with
    srcIdx := OrdMap.empty
    tgtIdx := OrdMap.empty
    cells := fun s t => if s < h.srcCap ∧ t < h.tgtCap then (h.cells s t).reset else h.cells s t }

/-- `capture` up to the access: the hitmap with the names entered and the array resized, the
indices, and whether each name is new. -/
def locate (k : CondConfig) (src tgt : String) (h : ArrayHitmap) :
    ArrayHitmap × (ℕ × Bool) × (ℕ × Bool) :=
  let (srcIdx, s, sNew) := Hitmap.findIndex k.perSource Hitmap.globalS h.srcIdx src
  let (tgtIdx, t, tNew) := Hitmap.findIndex k.perTarget Hitmap.globalT h.tgtIdx tgt
  let srcCap := if s ≥ h.srcCap then h.srcCap + Hitmap.capIncrement else h.srcCap
  let tgtCap := if t ≥ h.tgtCap then h.tgtCap + Hitmap.capIncrement else h.tgtCap
  let h' := { h with srcIdx, tgtIdx, srcCap, tgtCap }
  (if s ≥ h.srcCap ∨ t ≥ h.tgtCap then h'.resize else h', (s, sNew), (t, tNew))

def capture (k : CondConfig) (msg : Msg) (src tgt : String) (what : Smatch) (h : ArrayHitmap) :
    Except AccessErr (ArrayHitmap × Change × Option Hitmap.CellEvent) := do
  let (h, (s, sNew), (t, tNew)) := h.locate k src tgt
  match (← h.cell s t).hit k msg what with
  | none => throw .emptyList
  | some (x, te, flipped) =>
    return (h.setCell s t x, ⟨flipped, sNew, tNew⟩, te.map fun te => (te, s, t))

def event (k : CondConfig) (s t : ℕ) (ts : ℤ) (h : ArrayHitmap) :
    Except AccessErr (ArrayHitmap × Bool) := do
  let (x, flipped) := (← h.cell s t).event k ts
  return (h.setCell s t x, flipped)

/-- The hitmap without the extents. -/
def toHitmap (h : ArrayHitmap) : Hitmap where
  srcIdx := h.srcIdx
  tgtIdx := h.tgtIdx
  srcCap := h.srcCap
  tgtCap := h.tgtCap
  cells := h.cells

end ArrayHitmap

/-- The source name a condition distinguishes a message by. -/
def srcName (k : CondConfig) (src : String) : String :=
  if k.perSource then src else Hitmap.globalS

def tgtName (k : CondConfig) (tgt : String) : String :=
  if k.perTarget then tgt else Hitmap.globalT

/-- A message captured, and the cell it came to. -/
structure Captured where
  msg : Msg
  src : String
  tgt : String
  cell : ℕ × ℕ

structure HitmapRun where
  hitmap : ArrayHitmap := {}
  captured : List Captured := []
  scheduled : List Hitmap.CellEvent := []

inductive HitmapAct
  | capture (msg : Msg) (src tgt : String) (what : Smatch)
  | event (s t : ℕ) (ts : ℤ)
  | reset

namespace HitmapRun

variable (k : CondConfig)

/-- The state after an action, or how it fails. -/
def run : HitmapAct → HitmapRun → Except AccessErr HitmapRun
  | .capture msg src tgt what, r => do
    let (hitmap, _, te) ← r.hitmap.capture k msg src tgt what
    let at' := (r.hitmap.locate k src tgt).2
    return {
      hitmap
      captured := r.captured ++ [⟨msg, src, tgt, at'.1.1, at'.2.1⟩]
      scheduled := r.scheduled ++ te.toList }
  | .event s t ts, r => do
    let (hitmap, _) ← r.hitmap.event k s t ts
    return { r with hitmap }
  | .reset, r => .ok { r with hitmap := r.hitmap.reset, captured := [] }

def step (a : HitmapAct) (r : HitmapRun) : Option HitmapRun := (run k a r).toOption

/-- An event comes with the indices of one that was scheduled, before a reset or after. -/
def Allowed : HitmapAct → HitmapRun → Prop
  | .event s t _, r => ∃ te, (te, s, t) ∈ r.scheduled
  | _, _ => True

end HitmapRun

end MfExtensions
