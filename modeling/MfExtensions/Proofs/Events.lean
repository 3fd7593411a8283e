import MfExtensions.Engine
import MfExtensions.Proofs.Twin

/-!
# The timing events

The queue of events is sorted by time, so the events popped in a pass are those that are due
(`due_eq_filter`). What the pass does depends on the set of these events only: each cell with an
event that is due takes the status of events, and the conditions of which a cell flipped are
reported (`deliver_eq`).
-/

namespace MfExtensions

variable {C R : Type} [DecidableEq C]

/-! ## The queue -/

namespace Engine

omit [DecidableEq C] in
theorem mem_pushEvent {ev x : TimingEvent C} : ∀ {evs : List (TimingEvent C)},
    x ∈ pushEvent ev evs ↔ x = ev ∨ x ∈ evs
  | [] => by simp [pushEvent]
  | y :: ys => by
    unfold pushEvent
    split_ifs
    · rw [List.mem_cons]
    · rw [List.mem_cons, mem_pushEvent, List.mem_cons, or_left_comm]

omit [DecidableEq C] in
theorem pushEvent_sorted {ev : TimingEvent C} : ∀ {evs : List (TimingEvent C)},
    (evs.Pairwise fun x y => x.ts ≤ y.ts) → (pushEvent ev evs).Pairwise fun x y => x.ts ≤ y.ts
  | [], _ => List.pairwise_singleton _ _
  | y :: ys, h => by
    obtain ⟨hy, hys⟩ := List.pairwise_cons.1 h
    unfold pushEvent
    split_ifs with hlt
    · refine List.pairwise_cons.2 ⟨fun x hx => ?_, h⟩
      rcases List.mem_cons.1 hx with rfl | hx
      · exact hlt.le
      · exact hlt.le.trans (hy x hx)
    · refine List.pairwise_cons.2 ⟨fun x hx => ?_, pushEvent_sorted hys⟩
      rcases mem_pushEvent.1 hx with rfl | hx
      · exact not_lt.1 hlt
      · exact hy x hx

omit [DecidableEq C] in
/-- Of a sorted queue the events popped are the ones that are due. -/
theorem due_eq_filter (now : ℤ) : ∀ {evs : List (TimingEvent C)},
    (evs.Pairwise fun x y => x.ts ≤ y.ts) →
      (evs.takeWhile fun ev => ev.ts < now) = evs.filter (fun ev => ev.ts < now) ∧
      (evs.dropWhile fun ev => ev.ts < now) = evs.filter (fun ev => !decide (ev.ts < now))
  | [], _ => ⟨rfl, rfl⟩
  | y :: ys, h => by
    obtain ⟨hy, hys⟩ := List.pairwise_cons.1 h
    by_cases hlt : y.ts < now
    · obtain ⟨ht, hd⟩ := due_eq_filter now hys
      simp [hlt, ht, hd]
    · have hge : ∀ x ∈ ys, ¬x.ts < now := fun x hx => not_lt.2 ((not_lt.1 hlt).trans (hy x hx))
      have hnone : ys.filter (fun ev => ev.ts < now) = [] := by
        simpa [List.filter_eq_nil_iff] using hge
      have hall : ys.filter (fun ev => !decide (ev.ts < now)) = ys := by
        simpa [List.filter_eq_self] using hge
      simp [hlt, hnone, hall]

/-- An event of the list is due at the cell. -/
def isDue (evs : List (TimingEvent C)) (conds : C → Condition) (c : C) (s t : ℕ) : Bool :=
  evs.any fun ev => ev.cond = c ∧ ev.sIdx = s ∧ ev.tIdx = t ∧
    ev.ts = ((conds c).hitmap.cells s t).tEvent

variable (cfg : Config C R)

/-- The conditions once the events are delivered. -/
def delivered (evs : List (TimingEvent C)) (conds : C → Condition) (c : C) : Condition :=
  { conds c with
    hitmap := { (conds c).hitmap with
      cells := fun s t =>
        if isDue evs conds c s t then
          { (conds c).hitmap.cells s t with on := (cfg.cond c).eventStatus }
        else (conds c).hitmap.cells s t } }

variable (evs evs' : List (TimingEvent C)) (ev : TimingEvent C) (conds : C → Condition)

theorem delivered_cells (c : C) (s t : ℕ) : (delivered cfg evs conds c).hitmap.cells s t =
    { (conds c).hitmap.cells s t with
      on := if isDue evs conds c s t then (cfg.cond c).eventStatus
        else ((conds c).hitmap.cells s t).on } := by
  simp only [delivered]
  split_ifs <;> rfl

theorem isDue_delivered (c : C) (s t : ℕ) :
    isDue evs (delivered cfg evs' conds) c s t = isDue evs conds c s t := by
  simp only [isDue, delivered_cells]

theorem isDue_cons (c : C) (s t : ℕ) :
    isDue (ev :: evs) conds c s t = (isDue [ev] conds c s t || isDue evs conds c s t) := by
  simp only [isDue, List.any_cons, List.any_nil, Bool.or_false]

theorem isDue_iff {c : C} {s t : ℕ} : isDue evs conds c s t = true ↔ ∃ ev ∈ evs,
    ev.cond = c ∧ ev.sIdx = s ∧ ev.tIdx = t ∧
      ev.ts = ((conds c).hitmap.cells s t).tEvent := by
  simp [isDue]

theorem isDue_single {c : C} {s t : ℕ} : isDue [ev] conds c s t = true ↔
    ev.cond = c ∧ ev.sIdx = s ∧ ev.tIdx = t ∧
      ev.ts = ((conds c).hitmap.cells s t).tEvent := by
  simp [isDue]

/-- Delivering one event after the other is delivering them at once. -/
theorem delivered_cons : delivered cfg evs (delivered cfg [ev] conds) =
    delivered cfg (ev :: evs) conds := by
  have hcells : ∀ c s t, ((delivered cfg evs (delivered cfg [ev] conds) c).hitmap.cells s t) =
      (delivered cfg (ev :: evs) conds c).hitmap.cells s t := by
    intro c s t
    have hdue := isDue_delivered cfg evs [ev] conds c s t
    simp only [delivered] at hdue ⊢
    rw [hdue, isDue_cons evs ev conds c s t]
    cases isDue [ev] conds c s t <;> cases isDue evs conds c s t <;> rfl
  funext c
  have h := funext fun s => funext fun t => hcells c s t
  simp only [delivered] at h ⊢
  rw [h]

theorem update_event : Function.update conds ev.cond
    ((conds ev.cond).event (cfg.cond ev.cond) ev.sIdx ev.tIdx ev.ts).1 =
      delivered cfg [ev] conds := by
  funext c
  rcases eq_or_ne c ev.cond with rfl | hne
  · rw [Function.update_self]
    simp only [Condition.event, Hitmap.event, Cell.event_eq, delivered, Hitmap.setCell,
      Condition.mk.injEq, Hitmap.mk.injEq, true_and, and_true]
    funext s t
    by_cases hc : s = ev.sIdx ∧ t = ev.tIdx
    · obtain ⟨rfl, rfl⟩ := hc
      have hiff := isDue_single ev conds (c := ev.cond) (s := ev.sIdx) (t := ev.tIdx)
      simp only [true_and] at hiff
      by_cases hts : ev.ts = ((conds ev.cond).hitmap.cells ev.sIdx ev.tIdx).tEvent
      · simp [hts, hiff.2 hts]
      · simp [hts, mt hiff.1 hts]
    · have hnot : ¬isDue [ev] conds ev.cond s t = true := fun h => by
        obtain ⟨-, hs, ht, -⟩ := (isDue_single ev conds).1 h
        exact hc ⟨hs.symm, ht.symm⟩
      rw [if_neg hc, if_neg hnot]
  · rw [Function.update_of_ne hne]
    have hnot : ∀ s t, ¬isDue [ev] conds c s t = true := fun s t h =>
      hne ((isDue_single ev conds).1 h).1.symm
    simp only [delivered, if_neg (hnot _ _)]

/-- What a pass of events does: each cell with an event that is due takes its status, and the
conditions of which a cell flipped are reported. -/
theorem deliver_eq : ∀ (evs : List (TimingEvent C)) (conds : C → Condition) (status : List C),
    (deliver cfg evs conds status).1 = delivered cfg evs conds ∧
      ∀ c, c ∈ (deliver cfg evs conds status).2 ↔ c ∈ status ∨ ∃ s t,
        isDue evs conds c s t = true ∧
          (cfg.cond c).eventStatus ≠ ((conds c).hitmap.cells s t).on
  | [], conds, status => ⟨rfl, fun c => by simp [deliver, isDue]⟩
  | ev :: evs, conds, status => by
    have hflip : ((conds ev.cond).event (cfg.cond ev.cond) ev.sIdx ev.tIdx ev.ts).2 = true ↔
        ev.ts = ((conds ev.cond).hitmap.cells ev.sIdx ev.tIdx).tEvent ∧
        (cfg.cond ev.cond).eventStatus ≠
          ((conds ev.cond).hitmap.cells ev.sIdx ev.tIdx).on := by
      simp only [Condition.event, Hitmap.event, Cell.event_eq]
      split_ifs with hts
      · simp [hts]
      · simp [hts]
    unfold deliver
    simp only
    rw [update_event]
    obtain ⟨hconds, hstatus⟩ := deliver_eq evs (delivered cfg [ev] conds)
      (if ((conds ev.cond).event (cfg.cond ev.cond) ev.sIdx ev.tIdx ev.ts).2 = true then
        status ++ [ev.cond] else status)
    refine ⟨hconds.trans (delivered_cons cfg evs ev conds), fun c => (hstatus c).trans ?_⟩
    have hmem : c ∈ (if ((conds ev.cond).event (cfg.cond ev.cond) ev.sIdx ev.tIdx ev.ts).2 = true
        then status ++ [ev.cond] else status) ↔ c ∈ status ∨ c = ev.cond ∧
          ((conds ev.cond).event (cfg.cond ev.cond) ev.sIdx ev.tIdx ev.ts).2 = true := by
      split_ifs with h <;> simp [h]
    rw [hmem, hflip]
    simp only [isDue_delivered, delivered_cells, isDue_cons evs, Bool.or_eq_true]
    constructor
    · rintro ((h | ⟨rfl, hts, hne⟩) | ⟨s, t, hdue, hne⟩)
      · exact .inl h
      · exact .inr ⟨_, _, .inl ((isDue_single ev conds).2 ⟨rfl, rfl, rfl, hts⟩), hne⟩
      · split_ifs at hne with hev
        · exact absurd rfl hne
        · exact .inr ⟨s, t, .inr hdue, hne⟩
    · rintro (h | ⟨s, t, hdue, hne⟩)
      · exact .inl (.inl h)
      · by_cases hev : isDue [ev] conds c s t = true
        · obtain ⟨rfl, rfl, rfl, hts⟩ := (isDue_single ev conds).1 hev
          exact .inl (.inr ⟨rfl, hts, hne⟩)
        · refine .inr ⟨s, t, hdue.resolve_left hev, ?_⟩
          rwa [if_neg hev]

/-! ## Twins -/

variable {cfg evs evs' conds} {conds' : C → Condition} {c : C}

theorem sound_delivered (hs : (conds c).Sound (cfg.cond c))
    (hin : ∀ ev ∈ evs, (conds ev.cond).hitmap.Inside ev.sIdx ev.tIdx) :
    (delivered cfg evs conds c).Sound (cfg.cond c) := by
  refine ⟨⟨⟨hs.built.wf.src, hs.built.wf.tgt⟩, hs.built.srcSize, hs.built.tgtSize,
    fun s t hout => ?_⟩, hs.tgt, hs.what⟩
  have hnot : ¬isDue evs conds c s t = true := fun hdue => by
    obtain ⟨ev, hev, rfl, rfl, rfl, -⟩ := (isDue_iff evs conds).1 hdue
    exact hout (hin ev hev)
  rw [delivered_cells, if_neg hnot]
  exact hs.built.outside s t hout

/-- The second engine has the events that are due in the first, and those it has more are without
effect. -/
structure SameDue (k : CondConfig) (evs evs' : List (TimingEvent C)) (conds conds' : C → Condition)
    (c : C) : Prop where
  due : ∀ s t, isDue evs conds c s t = true → isDue evs' conds' c s t = true
  stale : ∀ s t, isDue evs' conds' c s t = true → isDue evs conds c s t = true ∨
    k.eventStatus = false ∧ ((conds' c).hitmap.cells s t).on = false

/-- Twins stay twins when their events are delivered. -/
theorem twin_delivered {sync group : Prop}
    (h : Condition.Twin (cfg.cond c) sync group (conds c) (conds' c))
    (hdue : SameDue (cfg.cond c) evs evs' conds conds' c)
    (hs : (delivered cfg evs conds c).Sound (cfg.cond c))
    (hs' : (delivered cfg evs' conds' c).Sound (cfg.cond c)) :
    Condition.Twin (cfg.cond c) sync group (delivered cfg evs conds c)
      (delivered cfg evs' conds' c) := by
  have hblank (hb : (conds c).Blank sync group) : (delivered cfg evs conds c).Blank sync group := by
    refine ⟨hb.last, fun hg s t => ?_⟩
    rw [delivered_cells]
    exact hb.what hg s t
  refine ⟨hs, hs', ⟨⟨h.hitmap.srcIdx, h.hitmap.tgtIdx, fun s t => ?_, fun s t => ?_⟩,
    fun hg s t => ?_, fun s t => ?_⟩, h.texts.imp_right hblank, h.lastSrc, h.lastTgt, h.lastWhat⟩
  · rw [delivered_cells, delivered_cells]
    by_cases hd : isDue evs conds c s t = true
    · simp only [hd, hdue.due s t hd, if_true]
    · by_cases hd' : isDue evs' conds' c s t = true
      · obtain ⟨hk, hoff⟩ := (hdue.stale s t hd').resolve_left hd
        simp only [hd', hk, ← h.hitmap.on s t, hoff, ite_self]
      · simp only [hd, hd', h.hitmap.on s t]
  · rw [delivered_cells, delivered_cells]
    exact h.hitmap.msgs s t
  · rw [delivered_cells, delivered_cells]
    exact h.hitmap.what hg s t
  · rw [delivered_cells, delivered_cells]
    exact h.hitmap.tEvent s t

/-- The same cells of twins flip. -/
theorem flips_twin {sync group : Prop}
    (h : Condition.Twin (cfg.cond c) sync group (conds c) (conds' c))
    (hdue : SameDue (cfg.cond c) evs evs' conds conds' c) :
    (∃ s t, isDue evs' conds' c s t = true ∧
      (cfg.cond c).eventStatus ≠ ((conds' c).hitmap.cells s t).on) ↔
    ∃ s t, isDue evs conds c s t = true ∧
      (cfg.cond c).eventStatus ≠ ((conds c).hitmap.cells s t).on := by
  constructor
  · rintro ⟨s, t, hd, hne⟩
    rcases hdue.stale s t hd with hd | ⟨hk, hoff⟩
    · rw [h.hitmap.on] at hne
      exact ⟨s, t, hd, hne⟩
    · exact absurd (hk.trans hoff.symm) hne
  · rintro ⟨s, t, hd, hne⟩
    rw [← h.hitmap.on] at hne
    exact ⟨s, t, hdue.due s t hd, hne⟩

end Engine

end MfExtensions
