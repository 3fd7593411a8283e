import MfExtensions.MsgViewerDlg

/-!
# What a tab shows

A tab shows its messages if its text is that of the messages of the tab that pass its threshold,
after those of messages that left the tab while it was shown (`Shows`). To draw the tab shows its
messages (`shows_displayMsgs`), and so does what is displayed or trimmed from then on
(`Shows.append`, `Shows.trim`).
-/

namespace MfExtensions

namespace TabDisplay

variable {M : Type} {obj : M → QtMfMsg} {short : Bool}

/-- The blocks of messages. -/
def blocks (obj : M → QtMfMsg) (short : Bool) (ms : List M) : List Str :=
  ms.flatMap fun m => (obj m).text' short :: if short then [] else [[]]

theorem updateTextArea_map (ms : List M) (area : List Str) :
    updateTextArea short (ms.map fun m => (obj m).text' short) area =
      area ++ blocks obj short ms := by
  induction ms generalizing area with
  | nil => exact (List.append_nil area).symm
  | cons m ms ih =>
    rw [List.map_cons, updateTextArea, List.foldl_cons]
    refine (ih _).trans ?_
    rw [blocks, blocks, List.flatMap_cons, List.append_assoc, List.append_assoc]
    rfl

theorem length_blocks_le (obj : M → QtMfMsg) (short : Bool) (ms : List M) :
    (blocks obj short ms).length ≤ 2 * ms.length := by
  induction ms with
  | nil => exact le_rfl
  | cons m ms ih =>
    have hblank : (if short then [] else [[]] : List Str).length ≤ 1 := by
      split_ifs <;> decide
    rw [blocks] at ih
    rw [blocks, List.flatMap_cons, List.length_append, List.length_cons, List.length_cons]
    omega

/-- The messages that a tab's threshold lets through. -/
def shown (obj : M → QtMfMsg) (d : TabDisplay) (ms : List M) : List M :=
  ms.filter fun m => d.passes (obj m)

theorem shown_append (d : TabDisplay) (ms ms' : List M) :
    d.shown obj (ms ++ ms') = d.shown obj ms ++ d.shown obj ms' := List.filter_append ..

theorem shown_singleton (d : TabDisplay) (m : M) :
    d.shown obj [m] = if d.passes (obj m) then [m] else [] := by
  rw [shown, List.filter_singleton, Bool.cond_eq_ite]

/-- `d` shows `ms` after the messages `gone`, which left the tab. -/
structure Shows (obj : M → QtMfMsg) (short : Bool) (gone ms : List M) (d : TabDisplay) : Prop where
  text : d.txtDisplay = blocks obj short (d.shown obj (gone ++ ms))
  count : d.nDisplayMsgs = (d.shown obj (gone ++ ms)).length
  deleted : d.nDisplayedDeletedMsgs = (d.shown obj gone).length

variable {d : TabDisplay} {gone ms : List M}

variable (obj short) in
theorem shows_displayMsgs (ms : List M) (d : TabDisplay) :
    (d.displayMsgs obj short ms).Shows obj short [] ms :=
  ⟨updateTextArea_map _ [], rfl, rfl⟩

variable (obj short) in
theorem shows_clear (d : TabDisplay) : d.clear.Shows obj short [] [] := ⟨rfl, rfl, rfl⟩

/-- A message is appended to the tab, and displayed if it passes. -/
theorem Shows.append (h : d.Shows obj short gone ms) (m : M) :
    (if d.passes (obj m) then d.displayMsg obj short m else d).Shows obj short gone
      (ms ++ [m]) := by
  have hshown : d.shown obj (gone ++ (ms ++ [m])) =
      d.shown obj (gone ++ ms) ++ if d.passes (obj m) then [m] else [] := by
    rw [← List.append_assoc, shown_append, shown_singleton]
  split_ifs at hshown ⊢ with hpass
  · refine ⟨?_, ?_, h.deleted⟩
    · refine (updateTextArea_map [m] d.txtDisplay).trans ?_
      rw [h.text, blocks, blocks, ← List.flatMap_append]
      exact congrArg _ hshown.symm
    · refine Eq.trans ?_ (congrArg (fun l => (l.length : ℤ)) hshown.symm)
      rw [List.length_append, List.length_singleton]
      exact congrArg (· + 1) h.count
  · rw [List.append_nil] at hshown
    exact ⟨hshown ▸ h.text, hshown ▸ h.count, h.deleted⟩

theorem trim_fst : ∀ (maxMsgs : ℕ) (ms : List M) (d : TabDisplay),
    (trim obj maxMsgs ms d).1 = ms.drop (ms.length - maxMsgs)
  | maxMsgs, [], d => (List.drop_nil).symm
  | maxMsgs, m :: ms, d => by
    rw [trim]
    by_cases hlen : maxMsgs < (m :: ms).length
    · rw [if_pos hlen, trim_fst, List.length_cons, Nat.succ_sub (Nat.le_of_lt_succ hlen),
        List.drop_succ_cons]
    · rw [if_neg hlen, Nat.sub_eq_zero_of_le (not_lt.1 hlen), List.drop_zero]

variable (obj) in
theorem trim_snd : ∀ (maxMsgs : ℕ) (ms : List M) (d : TabDisplay),
    (trim obj maxMsgs ms d).2.nDisplayMsgs = d.nDisplayMsgs ∧
      (trim obj maxMsgs ms d).2.sevThresh = d.sevThresh
  | maxMsgs, [], d => ⟨rfl, rfl⟩
  | maxMsgs, m :: ms, d => by
    rw [trim]
    split_ifs
    · exact trim_snd maxMsgs ms _
    · exact trim_snd maxMsgs ms d
    · exact ⟨rfl, rfl⟩

/-- What the front of the tab loses goes on being shown. -/
theorem Shows.trim (maxMsgs : ℕ) (h : d.Shows obj short gone ms) :
    ∃ gone', (trim obj maxMsgs ms d).2.Shows obj short gone' (trim obj maxMsgs ms d).1 ∧
      gone' ++ (trim obj maxMsgs ms d).1 = gone ++ ms := by
  induction ms generalizing d gone with
  | nil => exact ⟨gone, h, rfl⟩
  | cons m ms ih =>
    rw [TabDisplay.trim]
    have happend : gone ++ [m] ++ ms = gone ++ m :: ms := List.append_assoc ..
    split_ifs with hlen hpass
    · rw [← happend]
      refine ih ⟨happend.symm ▸ h.text, happend.symm ▸ h.count, ?_⟩
      have hshown : d.shown obj (gone ++ [m]) = d.shown obj gone ++ [m] := by
        rw [shown_append, shown_singleton, if_pos hpass]
      refine (congrArg (· + 1) h.deleted).trans ?_
      refine Eq.trans ?_ (congrArg (fun l => (l.length : ℤ)) hshown.symm)
      rw [List.length_append, List.length_singleton]
      rfl
    · rw [← happend]
      refine ih ⟨happend.symm ▸ h.text, happend.symm ▸ h.count, ?_⟩
      rw [shown_append, shown_singleton, if_neg hpass, List.append_nil]
      exact h.deleted
    · exact ⟨gone, h, rfl⟩

end TabDisplay

end MfExtensions
