import MfExtensions.Cell

/-!
# The outcomes of a hit

A hit of a cell goes one of three ways (`hit_cases`): the cell is on for good, an event is
scheduled, or too few messages are held for one.
-/

namespace MfExtensions

namespace Cell

variable {k : CondConfig} {msg : Msg} {w : Smatch} {x y : Cell} {te : Option ℤ} {flipped : Bool}

/-- The cell, the event and the outcome of a hit. -/
inductive HitTo (k : CondConfig) (msg : Msg) (w : Smatch) (x : Cell) :
    Cell → Option ℤ → Bool → Prop
  | persistent (hidle : (x.on && k.persistent) = true) :
      HitTo k msg w x { x with what := w, msgs := (x.msgs ++ [msg]).tail } none false
  | scheduled {fresh : List Msg} {t : ℤ} {on : Bool} (hidle : (x.on && k.persistent) = false)
      (hfresh : popExpired msg.time k.ts (x.msgs ++ [msg]) = some fresh)
      (ht : nextEvent k.ts (popExcess (sizeT k.tc) fresh) = some t)
      (hon : on = (k.atLeast && decide ((popExcess (sizeT k.tc) fresh).length = sizeT k.tc))) :
      HitTo k msg w x { msgs := popExcess (sizeT k.tc) fresh, on, what := w, tEvent := t } (some t)
        (on != x.on)
  | few {fresh : List Msg} (hidle : (x.on && k.persistent) = false)
      (hfresh : popExpired msg.time k.ts (x.msgs ++ [msg]) = some fresh)
      (hlen : (popExcess (sizeT k.tc) fresh).length ≠ sizeT k.tc) (hleast : k.atLeast = true) :
      HitTo k msg w x { x with msgs := popExcess (sizeT k.tc) fresh, on := false, what := w } none
        x.on

theorem hit_cases (h : x.hit k msg w = some (y, te, flipped)) : HitTo k msg w x y te flipped := by
  unfold hit at h
  simp only [] at h
  split at h
  · rename_i hidle
    cases h
    exact .persistent hidle
  · rename_i hidle
    rw [Bool.not_eq_true] at hidle
    split at h
    · cases h
    · rename_i fresh hfresh
      split_ifs at h with hfull hmost
      · rcases ht : nextEvent k.ts (popExcess (sizeT k.tc) fresh) with _ | t <;> rw [ht] at h <;>
          cases h
        exact .scheduled hidle hfresh ht (by simp [hfull])
      · rcases ht : nextEvent k.ts (popExcess (sizeT k.tc) fresh) with _ | t <;> rw [ht] at h <;>
          cases h
        have hto := HitTo.scheduled (w := w) hidle hfresh ht rfl
        rwa [decide_eq_false hfull, Bool.and_false, Bool.false_bne] at hto
      · cases h
        exact .few hidle hfresh hfull (by simpa using hmost)

/-- The groups of the last hit are kept. -/
theorem hit_what (h : x.hit k msg w = some (y, te, flipped)) : y.what = w := by
  rcases hit_cases h with _ | _ | _ <;> rfl

/-- A hit reports whether the status of its cell changes. -/
theorem hit_flipped (h : x.hit k msg w = some (y, te, flipped)) : flipped = (y.on != x.on) := by
  rcases hit_cases h with _ | _ | _
  · exact (bne_self_eq_false _).symm
  · rfl
  · exact (Bool.false_bne _).symm

/-- A hit leaves the status and the time of the next event, or schedules an event at that time, or
turns the cell off. -/
theorem hit_event (h : x.hit k msg w = some (y, te, flipped)) :
    te = some y.tEvent ∨ y.tEvent = x.tEvent ∧ (y.on = x.on ∨ y.on = false) := by
  rcases hit_cases h with _ | _ | _
  · exact .inr ⟨rfl, .inl rfl⟩
  · exact .inl rfl
  · exact .inr ⟨rfl, .inr rfl⟩

end Cell

end MfExtensions
