import MfExtensions.Proofs.Intersect

/-!
# What the viewer counts and shows

Every message is suppressed, throttled, deleted or in the pool (`msgs_accounted`). The tab without
filters shows the pool as long as each message that is kept comes to a pool with room or to an
empty one (`pool_shown`): the tabs are trimmed before the message is appended to them, to no
message at all where there is no limit. Any other message that is kept makes a tab too long, or
leaves the messages of the pool out of the first tab (`not_shown`).
-/

namespace MfExtensions

open Machine

namespace MsgViewer

variable {M : Type} {obj : M → QtMfMsg} {fold : Char → Char} {s s' : MsgViewer M}

/-! ## Every message is counted -/

/-- The messages that are accounted for. -/
def accountedMsgs (s : MsgViewer M) : ℤ :=
  s.nSupMsgs + s.nThrMsgs + s.nDeleted + s.msgPool.length

/-- A message is counted as suppressed or throttled if and only if it is one of the two. -/
theorem msgThrottled_counts (msg : QtMfMsg) (s : MsgViewer M) :
    (s.msgThrottled msg).2.nMsgs = s.nMsgs ∧
      (s.msgThrottled msg).2.accountedMsgs =
        s.accountedMsgs + (s.msgThrottled msg).1.toInt := by
  have hcounts : (s.msgThrottled msg).2.nMsgs = s.nMsgs ∧
      (s.msgThrottled msg).2.nDeleted = s.nDeleted ∧
      (s.msgThrottled msg).2.msgPool = s.msgPool ∧
      (s.msgThrottled msg).2.nSupMsgs + (s.msgThrottled msg).2.nThrMsgs =
        s.nSupMsgs + s.nThrMsgs + (s.msgThrottled msg).1.toInt := by
    unfold msgThrottled
    dsimp only
    split_ifs
    -- counted as suppressed, or as throttled, or as neither
    all_goals dsimp only [Bool.toInt, cond_true, cond_false]
    all_goals exact ⟨rfl, rfl, rfl, by omega⟩
  obtain ⟨hmsgs, hdeleted, hpool, hcount⟩ := hcounts
  refine ⟨hmsgs, ?_⟩
  rw [accountedMsgs, accountedMsgs, hdeleted, hpool, hcount]
  omega

/-- What `onNewMsg` does with a message that is not throttled. -/
def keep [DecidableEq M] (obj : M → QtMfMsg) (fold : Char → Char) (m : M) (s : MsgViewer M) :
    MsgViewer M :=
  let s := ({ s with msgPool := s.msgPool ++ [m] } : MsgViewer M).trimMsgPool obj
  { s.updateIndex obj m with
    msgFilters := s.msgFilters.map fun d =>
      if d.shows fold (obj m) then { d with msgs := d.msgs ++ [m] } else d }

variable [DecidableEq M]

theorem onNewMsg_eq (m : M) (s : MsgViewer M) : s.onNewMsg obj fold m =
    if (({ s with nMsgs := s.nMsgs + 1 } : MsgViewer M).msgThrottled (obj m)).1 then
      (({ s with nMsgs := s.nMsgs + 1 } : MsgViewer M).msgThrottled (obj m)).2
    else keep obj fold m (({ s with nMsgs := s.nMsgs + 1 } : MsgViewer M).msgThrottled (obj m)).2 :=
  rfl

/-- The loop deletes the messages it takes out of the pool. -/
theorem trimLoop_counts : ∀ (ms : List M) (s : MsgViewer M) (u : ListUpdate), s.msgPool = ms →
    (trimLoop obj ms s u).1.nMsgs = s.nMsgs ∧
      (trimLoop obj ms s u).1.nSupMsgs = s.nSupMsgs ∧
      (trimLoop obj ms s u).1.nThrMsgs = s.nThrMsgs ∧
      (trimLoop obj ms s u).1.nDeleted + (trimLoop obj ms s u).1.msgPool.length =
        s.nDeleted + ms.length
  | [], s, u, h => ⟨rfl, rfl, rfl, by rw [trimLoop, h]⟩
  | m :: ms, s, u, h => by
    rw [trimLoop]
    split_ifs
    · have hround : (trimRound obj m s u).1.msgPool = ms := by
        show s.msgPool.tail = ms
        rw [h, List.tail_cons]
      have hdeleted : (trimRound obj m s u).1.nDeleted = s.nDeleted + 1 := rfl
      obtain ⟨hmsgs, hsup, hthr, hdel⟩ := trimLoop_counts ms (trimRound obj m s u).1
        (trimRound obj m s u).2 hround
      refine ⟨hmsgs, hsup, hthr, hdel.trans ?_⟩
      rw [hdeleted, List.length_cons]
      omega
    · exact ⟨rfl, rfl, rfl, by rw [h]⟩

/-- The viewer after the loop of `trim_msg_pool`, with a new message in the pool. -/
def trimmed (obj : M → QtMfMsg) (m : M) (s : MsgViewer M) : MsgViewer M :=
  (trimLoop obj (s.msgPool ++ [m]) { s with msgPool := s.msgPool ++ [m] } {}).1

variable (obj fold) in
/-- What follows the loop changes the lists, the labels and the tabs only. -/
theorem keep_fields (m : M) (s : MsgViewer M) :
    (keep obj fold m s).nMsgs = (trimmed obj m s).nMsgs ∧
      (keep obj fold m s).nSupMsgs = (trimmed obj m s).nSupMsgs ∧
      (keep obj fold m s).nThrMsgs = (trimmed obj m s).nThrMsgs ∧
      (keep obj fold m s).nDeleted = (trimmed obj m s).nDeleted ∧
      (keep obj fold m s).msgPool = (trimmed obj m s).msgPool ∧
      (keep obj fold m s).maxMsgs = (trimmed obj m s).maxMsgs ∧
      (keep obj fold m s).msgFilters = ((trimmed obj m s).msgFilters.map fun d =>
        ({ d with msgs := d.msgs.drop (d.msgs.length - (trimmed obj m s).maxMsgs) } :
          MsgFilterDisplay M)).map fun d =>
            if d.shows fold (obj m) then { d with msgs := d.msgs ++ [m] } else d := by
  unfold keep trimMsgPool updateIndex trimmed
  dsimp only
  exact ⟨rfl, rfl, rfl, rfl, rfl, rfl, rfl⟩

variable (obj) in
theorem trimmed_counts (m : M) (s : MsgViewer M) :
    (trimmed obj m s).nMsgs = s.nMsgs ∧ (trimmed obj m s).nSupMsgs = s.nSupMsgs ∧
      (trimmed obj m s).nThrMsgs = s.nThrMsgs ∧
      (trimmed obj m s).nDeleted + (trimmed obj m s).msgPool.length =
        s.nDeleted + (s.msgPool ++ [m]).length :=
  trimLoop_counts (s.msgPool ++ [m]) { s with msgPool := s.msgPool ++ [m] } {} rfl

theorem keep_counts (m : M) (s : MsgViewer M) : (keep obj fold m s).nMsgs = s.nMsgs ∧
    (keep obj fold m s).accountedMsgs = s.accountedMsgs + 1 := by
  obtain ⟨hmsgs, hsup, hthr, hdel, hpool, -, -⟩ := keep_fields obj fold m s
  obtain ⟨hmsgs', hsup', hthr', hdel'⟩ := trimmed_counts obj m s
  rw [List.length_append, List.length_singleton] at hdel'
  refine ⟨hmsgs.trans hmsgs', ?_⟩
  rw [accountedMsgs, accountedMsgs, hsup, hthr, hdel, hpool, hsup', hthr']
  omega

theorem onNewMsg_counts (m : M) (s : MsgViewer M) :
    (s.onNewMsg obj fold m).nMsgs = s.nMsgs + 1 ∧
      (s.onNewMsg obj fold m).accountedMsgs = s.accountedMsgs + 1 := by
  obtain ⟨hmsgs, hacc⟩ := msgThrottled_counts (obj m) { s with nMsgs := s.nMsgs + 1 }
  rw [onNewMsg_eq]
  split_ifs with hthr
  · rw [hthr] at hacc
    exact ⟨hmsgs, hacc⟩
  · rw [Bool.not_eq_true] at hthr
    rw [hthr, Bool.toInt, cond_false, add_zero] at hacc
    rw [(keep_counts _ _).1, (keep_counts _ _).2, hmsgs, hacc]
    exact ⟨rfl, rfl⟩

theorem counts_step {a : ViewerAct M} (h : s.nMsgs = s.accountedMsgs)
    (hs : step obj fold a s = some s') : s'.nMsgs = s'.accountedMsgs := by
  cases a with
  | onNewMsg m =>
    obtain ⟨hmsgs, hacc⟩ := onNewMsg_counts m s
    rw [← Option.some_inj.1 hs, hmsgs, hacc, h]
  | clear =>
    rw [← Option.some_inj.1 hs]
    rfl
  | setFilter addr hostFilter appFilter catFilter =>
    rw [← Option.some_inj.1 hs]
    unfold setFilter
    dsimp only
    split_ifs <;> exact h
  | tabCloseRequested tabIndex =>
    rw [← Option.some_inj.1 hs]
    unfold tabCloseRequested
    split_ifs <;> exact h
  | setSuppression l i status =>
    rw [← Option.some_inj.1 hs]
    cases l <;> exact h
  | setThrottling l i status =>
    rw [← Option.some_inj.1 hs]
    cases l <;> exact h

variable (fold) in
/-- Whatever happened, every message that came was suppressed, throttled or deleted, or is in the
pool. -/
theorem msgs_accounted {conf : ViewerConf} (h : Reaches (step obj fold) (parseConf conf) s) :
    s.nMsgs = s.nSupMsgs + s.nThrMsgs + s.nDeleted + s.msgPool.length :=
  h.invariant (I := fun s => s.nMsgs = s.accountedMsgs) rfl fun _ _ _ hI _ hs => counts_step hI hs

/-! ## The tabs are no longer than the pool -/

omit [DecidableEq M] in
theorem countP_key {key : M → Str} {ks : List Str} {k : Str} (hk : k ∉ ks) (pool : List M) :
    pool.countP (fun m => key m ∈ ks ++ [k]) =
      pool.countP (fun m => key m ∈ ks) + pool.countP fun m => key m = k := by
  induction pool with
  | nil => rfl
  | cons x xs ih =>
    rw [List.countP_cons, List.countP_cons, List.countP_cons, ih]
    by_cases hx : key x = k
    · simp only [hx, hk, List.mem_append, List.mem_singleton, or_true, decide_true, decide_false,
        Bool.false_eq_true, if_true, if_false]
      omega
    · simp only [hx, List.mem_append, List.mem_singleton, or_false, decide_false,
        Bool.false_eq_true, if_false]
      omega

omit [DecidableEq M] in
/-- The merged lists of keys that are selected once hold a message of the pool at most once. -/
theorem mergeKeys_length {addr : M → ℕ} {key : M → Str} {pool : List M} {map : MsgsMap M}
    (h : Indexed key pool map) {filter : List Str} (hfilter : filter.Nodup) :
    (mergeKeys addr map filter).length = pool.countP fun m => key m ∈ filter := by
  induction filter using List.reverseRecOn with
  | nil => simp [mergeKeys]
  | append_singleton ks k ih =>
    obtain ⟨hks, -, hk⟩ := List.nodup_append.1 hfilter
    have hlist := h.list k
    rw [countP_key (fun hmem => hk k hmem k (List.mem_singleton.2 rfl) rfl), ← ih hks,
      List.countP_eq_length_filter, ← hlist]
    unfold mergeKeys
    rw [List.foldl_append, List.foldl_cons, List.foldl_nil]
    cases map.find? k with
    | none => rfl
    | some l => simp [merge]

omit [DecidableEq M] in
theorem listIntersect_sublist (addr : M → ℕ) (l₁ l₂ : List M) :
    (listIntersect addr l₁ l₂).Sublist l₁ := by
  induction l₁, l₂ using listIntersect.induct addr with
  | case1 l₂ => simp [listIntersect]
  | case2 x xs => simp [listIntersect]
  | case3 x xs y ys hlt ih =>
    rw [listIntersect, if_pos hlt]
    exact ih.cons x
  | case4 x xs y ys hlt hgt ih =>
    rw [listIntersect, if_neg hlt, if_pos hgt]
    exact ih
  | case5 x xs y ys hlt hgt ih =>
    rw [listIntersect, if_neg hlt, if_neg hgt]
    exact ih.cons_cons x

omit [DecidableEq M] in
theorem filterMsgs_length (addr : M → ℕ) (h : Consistent obj s) {hosts apps cats : List Str}
    (hhosts : hosts.Nodup) (happs : apps.Nodup) (hcats : cats.Nodup) :
    (s.filterMsgs addr hosts apps cats).length ≤ s.msgPool.length := by
  have hkeys : ∀ (f : Field) {ks : List Str}, ks.Nodup →
      (mergeKeys addr (s.msgs f) ks).length ≤ s.msgPool.length := fun f ks hks =>
    (mergeKeys_length (h.indexed f) hks).trans_le List.countP_le_length
  have hstage : ∀ (filter : List Str) {result other : List M},
      result.length ≤ s.msgPool.length → other.length ≤ s.msgPool.length →
      (if filter.isEmpty then result
        else if result.isEmpty then other else listIntersect addr result other).length ≤
        s.msgPool.length := by
    intro filter result other hresult hother
    split_ifs
    · exact hresult
    · exact hother
    · exact (listIntersect_sublist addr result other).length_le.trans hresult
  exact hstage cats (hstage hosts (hkeys .app happs) (hkeys .host hhosts)) (hkeys .cat hcats)

/-! ## The first tab and the limit -/

/-- The tab without filters shows the pool, and no tab holds more messages than the limit. -/
structure Shown (s : MsgViewer M) : Prop where
  first : ∃ d ds, s.msgFilters = d :: ds ∧ d.hostFilter = [] ∧ d.appFilter = [] ∧
    d.catFilter = [] ∧ d.msgs = s.msgPool
  bounded : 0 < s.maxMsgs → ∀ d ∈ s.msgFilters, d.msgs.length ≤ s.maxMsgs

/-- A message is suppressed, or has reached the limit of a throttle. -/
def throttled (msg : QtMfMsg) (s : MsgViewer M) : Bool :=
  s.eSupHost.any (·.match' msg.host) || s.eSupApp.any (·.match' msg.app) ||
    s.eSupCat.any (·.match' msg.cat) || (reachAny msg.host msg.time s.eThrHost).1 ||
    (reachAny msg.app msg.time s.eThrApp).1 || (reachAny msg.cat msg.time s.eThrCat).1

omit [DecidableEq M] in
theorem msgThrottled_fst (msg : QtMfMsg) (s : MsgViewer M) :
    (s.msgThrottled msg).1 = s.throttled msg := by
  unfold msgThrottled throttled
  dsimp only
  split_ifs with hsup hhost happ hcat
  · rw [hsup]
    rfl
  · simp [hhost]
  · simp [happ]
  · simp [hcat]
  · rw [Bool.not_eq_true] at hsup hhost happ hcat
    rw [hsup, hhost, happ, hcat]
    rfl

/-- A message that is kept comes to a pool with room for it or to an empty one; an item of a list
is selected once. -/
def Room (obj : M → QtMfMsg) : ViewerAct M → MsgViewer M → Prop
  | .onNewMsg m, s => s.throttled (obj m) = false →
      s.msgPool.length < s.maxMsgs ∨ s.msgPool = []
  | .setFilter _ hostFilter appFilter catFilter, _ =>
      hostFilter.Nodup ∧ appFilter.Nodup ∧ catFilter.Nodup
  | _, _ => True

/-- A tab after a message was kept. -/
def keepTab (obj : M → QtMfMsg) (fold : Char → Char) (maxMsgs : ℕ) (m : M)
    (d : MsgFilterDisplay M) : MsgFilterDisplay M :=
  let d := { d with msgs := d.msgs.drop (d.msgs.length - maxMsgs) }
  if d.shows fold (obj m) then { d with msgs := d.msgs ++ [m] } else d

theorem trimLoop_tabs : ∀ (ms : List M) (s : MsgViewer M) (u : ListUpdate),
    (trimLoop obj ms s u).1.maxMsgs = s.maxMsgs ∧
      (trimLoop obj ms s u).1.msgFilters = s.msgFilters
  | [], s, u => ⟨rfl, rfl⟩
  | m :: ms, s, u => by
    rw [trimLoop]
    split_ifs
    · exact trimLoop_tabs ms (trimRound obj m s u).1 (trimRound obj m s u).2
    · exact ⟨rfl, rfl⟩

theorem trimLoop_room {ms : List M} {s : MsgViewer M} (u : ListUpdate)
    (h : s.maxMsgs = 0 ∨ ms.length ≤ s.maxMsgs) : trimLoop obj ms s u = (s, u) := by
  cases ms with
  | nil => rfl
  | cons m ms => rw [trimLoop, if_neg (by omega)]

theorem trimmed_tabs (m : M) (s : MsgViewer M) :
    (trimmed obj m s).maxMsgs = s.maxMsgs ∧ (trimmed obj m s).msgFilters = s.msgFilters :=
  trimLoop_tabs (s.msgPool ++ [m]) { s with msgPool := s.msgPool ++ [m] } {}

theorem keep_maxMsgs (m : M) (s : MsgViewer M) : (keep obj fold m s).maxMsgs = s.maxMsgs := by
  obtain ⟨-, -, -, -, -, hmax, -⟩ := keep_fields obj fold m s
  rw [hmax, (trimmed_tabs m s).1]

theorem keep_msgFilters (m : M) (s : MsgViewer M) :
    (keep obj fold m s).msgFilters = s.msgFilters.map (keepTab obj fold s.maxMsgs m) := by
  obtain ⟨-, -, -, -, -, -, htabs⟩ := keep_fields obj fold m s
  rw [htabs, (trimmed_tabs m s).1, (trimmed_tabs m s).2, List.map_map]
  rfl

theorem keep_msgPool {m : M} {s : MsgViewer M}
    (h : s.maxMsgs = 0 ∨ s.msgPool.length < s.maxMsgs) :
    (keep obj fold m s).msgPool = s.msgPool ++ [m] := by
  obtain ⟨-, -, -, -, hpool, -, -⟩ := keep_fields obj fold m s
  rw [hpool, trimmed, trimLoop_room]
  rw [List.length_append, List.length_singleton]
  exact h

/-- What a run with room for each message keeps: the tabs are no longer than the pool, and the pool
is no longer than the limit. -/
structure Roomy (obj : M → QtMfMsg) (s : MsgViewer M) : Prop where
  consistent : Consistent obj s
  first : ∃ d ds, s.msgFilters = d :: ds ∧ d.hostFilter = [] ∧ d.appFilter = [] ∧
    d.catFilter = [] ∧ d.msgs = s.msgPool
  tabs : ∀ d ∈ s.msgFilters, d.msgs.length ≤ s.msgPool.length
  pool : 0 < s.maxMsgs → s.msgPool.length ≤ s.maxMsgs

omit [DecidableEq M] in
theorem Roomy.shown (h : Roomy obj s) : Shown s :=
  ⟨h.first, fun hmax d hd => (h.tabs d hd).trans (h.pool hmax)⟩

omit [DecidableEq M] in
/-- A tab that is within the limit is only appended to. -/
theorem keepTab_room {maxMsgs : ℕ} {m : M} {d : MsgFilterDisplay M}
    (h : d.msgs.length ≤ maxMsgs ∨ d.msgs = []) :
    (keepTab obj fold maxMsgs m d).msgs =
      if d.shows fold (obj m) then d.msgs ++ [m] else d.msgs := by
  have hdrop : d.msgs.drop (d.msgs.length - maxMsgs) = d.msgs := by
    rcases h with h | h
    · rw [Nat.sub_eq_zero_of_le h, List.drop_zero]
    · rw [h, List.drop_nil]
  unfold keepTab
  dsimp only
  rw [hdrop]
  split_ifs <;> rfl

variable (fold) in
omit [DecidableEq M] in
theorem shows_of_filters {d : MsgFilterDisplay M} (hhost : d.hostFilter = [])
    (happ : d.appFilter = []) (hcat : d.catFilter = []) (msg : QtMfMsg) :
    d.shows fold msg = true := by
  simp [MsgFilterDisplay.shows, hhost, happ, hcat]

variable (obj fold) in
omit [DecidableEq M] in
theorem keepTab_filters (maxMsgs : ℕ) (m : M) (d : MsgFilterDisplay M) :
    (keepTab obj fold maxMsgs m d).hostFilter = d.hostFilter ∧
      (keepTab obj fold maxMsgs m d).appFilter = d.appFilter ∧
      (keepTab obj fold maxMsgs m d).catFilter = d.catFilter := by
  unfold keepTab
  dsimp only
  split_ifs <;> exact ⟨rfl, rfl, rfl⟩

omit [DecidableEq M] in
/-- With room in the pool there is room in every tab. -/
theorem Roomy.keepTab_msgs (h : Roomy obj s)
    (hroom : s.msgPool.length < s.maxMsgs ∨ s.msgPool = []) (m : M) {d : MsgFilterDisplay M}
    (hd : d ∈ s.msgFilters) : (keepTab obj fold s.maxMsgs m d).msgs =
      if d.shows fold (obj m) then d.msgs ++ [m] else d.msgs := by
  have hle := h.tabs d hd
  refine keepTab_room ?_
  rcases hroom with hroom | hroom
  · exact .inl (by omega)
  · rw [hroom, List.length_nil, Nat.le_zero, List.length_eq_zero_iff] at hle
    exact .inr hle

theorem roomy_keep {m : M} (h : Roomy obj s)
    (hroom : s.msgPool.length < s.maxMsgs ∨ s.msgPool = [])
    (hconsistent : Consistent obj (keep obj fold m s)) : Roomy obj (keep obj fold m s) := by
  have hfit : s.maxMsgs = 0 ∨ s.msgPool.length < s.maxMsgs := by
    rcases hroom with hroom | hroom
    · exact .inr hroom
    · rw [hroom, List.length_nil]
      omega
  have hpool : (keep obj fold m s).msgPool = s.msgPool ++ [m] := keep_msgPool hfit
  refine ⟨hconsistent, ?_, ?_, ?_⟩
  · obtain ⟨d, ds, hd, hhost, happ, hcat, hmsgs⟩ := h.first
    obtain ⟨hhost', happ', hcat'⟩ := keepTab_filters obj fold s.maxMsgs m d
    have hshows := shows_of_filters fold hhost happ hcat (obj m)
    refine ⟨_, _, by rw [keep_msgFilters, hd, List.map_cons], hhost'.trans hhost, happ'.trans happ,
      hcat'.trans hcat, ?_⟩
    rw [h.keepTab_msgs hroom m (hd ▸ List.mem_cons_self), if_pos hshows, hmsgs, hpool]
  · intro d' hd'
    rw [keep_msgFilters, List.mem_map] at hd'
    obtain ⟨d, hd, rfl⟩ := hd'
    have hle := h.tabs d hd
    rw [h.keepTab_msgs hroom m hd, hpool, List.length_append]
    split_ifs
    · rw [List.length_append]
      omega
    · omega
  · intro hmax
    rw [keep_maxMsgs] at hmax ⊢
    rw [hpool, List.length_append, List.length_singleton]
    omega

omit [DecidableEq M] in
/-- A change of the counters, the entries and the labels keeps the tabs. -/
theorem Roomy.of_same {s' : MsgViewer M} (hs : Same s s') (h : Roomy obj s) : Roomy obj s' where
  consistent := hs.consistent h.consistent
  first := by
    rw [hs.msgFilters, hs.msgPool]
    exact h.first
  tabs := by
    rw [hs.msgFilters, hs.msgPool]
    exact h.tabs
  pool := by
    rw [hs.maxMsgs, hs.msgPool]
    exact h.pool

theorem roomy_onNewMsg {m : M} (h : Roomy obj s) (hroom : Room obj (.onNewMsg m) s) :
    Roomy obj (s.onNewMsg obj fold m) := by
  have hnew : Same s { s with nMsgs := s.nMsgs + 1 } := ⟨rfl, rfl, rfl, rfl, rfl⟩
  have hsame := msgThrottled_same (obj m) { s with nMsgs := s.nMsgs + 1 }
  have hconsistent := consistent_onNewMsg fold h.consistent m
  rw [onNewMsg_eq] at hconsistent ⊢
  split_ifs at hconsistent ⊢ with hthr
  · exact (h.of_same hnew).of_same hsame
  · refine roomy_keep ((h.of_same hnew).of_same hsame) ?_ hconsistent
    rw [hsame.msgPool, hsame.maxMsgs]
    rw [msgThrottled_fst, Bool.not_eq_true] at hthr
    exact hroom hthr

omit [DecidableEq M] in
theorem roomy_clear (h : Roomy obj s) (hconsistent : Consistent obj s.clear) :
    Roomy obj s.clear := by
  obtain ⟨d, ds, hd, hhost, happ, hcat, -⟩ := h.first
  refine ⟨hconsistent, ⟨_, _, congrArg (List.map _) hd, hhost, happ, hcat, rfl⟩, fun d' hd' => ?_,
    fun _ => Nat.zero_le _⟩
  obtain ⟨d, -, rfl⟩ := List.mem_map.1 hd'
  exact Nat.zero_le _

omit [DecidableEq M] in
/-- A new tab shows messages of the pool. -/
theorem roomy_setFilter {addr : M → ℕ} {hostFilter appFilter catFilter : List Str}
    (h : Roomy obj s) (hok : Room obj (.setFilter addr hostFilter appFilter catFilter) s)
    (hconsistent : Consistent obj (setFilter addr hostFilter appFilter catFilter s)) :
    Roomy obj (setFilter addr hostFilter appFilter catFilter s) := by
  obtain ⟨d, ds, hd, hfirst⟩ := h.first
  obtain ⟨hhosts, happs, hcats⟩ := hok
  have hnew := filterMsgs_length addr h.consistent hhosts happs hcats
  unfold setFilter at hconsistent ⊢
  dsimp only at hconsistent ⊢
  split_ifs at hconsistent ⊢
  · exact h
  · exact h
  · refine ⟨hconsistent, ⟨d, _, congrArg (· ++ _) hd, hfirst⟩, fun d' hd' => ?_, h.pool⟩
    rcases List.mem_append.1 hd' with hd' | hd'
    · exact h.tabs d' hd'
    · rw [List.mem_singleton.1 hd']
      exact hnew

omit [DecidableEq M] in
/-- The first tab is not closed. -/
theorem roomy_tabCloseRequested {tabIndex : ℕ} (h : Roomy obj s)
    (hconsistent : Consistent obj (s.tabCloseRequested tabIndex)) :
    Roomy obj (s.tabCloseRequested tabIndex) := by
  obtain ⟨d, ds, hd, hfirst⟩ := h.first
  unfold tabCloseRequested at hconsistent ⊢
  split_ifs at hconsistent ⊢ with htab
  · exact h
  · obtain ⟨i, rfl⟩ : ∃ i, tabIndex = i + 1 := ⟨tabIndex - 1, by omega⟩
    refine ⟨hconsistent, ⟨d, ds.eraseIdx i, ?_, hfirst⟩, fun d' hd' => ?_, h.pool⟩
    · show s.msgFilters.eraseIdx (i + 1) = _
      rw [hd, List.eraseIdx_cons_succ]
    · exact h.tabs d' ((List.eraseIdx_sublist _ _).subset hd')

theorem roomy_step {a : ViewerAct M} (h : Roomy obj s) (hok : Room obj a s)
    (hs : step obj fold a s = some s') : Roomy obj s' := by
  have hconsistent := consistent_step fold h.consistent hs
  cases a with
  | onNewMsg m =>
    rw [← Option.some_inj.1 hs]
    exact roomy_onNewMsg h hok
  | clear =>
    rw [← Option.some_inj.1 hs] at hconsistent ⊢
    exact roomy_clear h hconsistent
  | setFilter addr hostFilter appFilter catFilter =>
    rw [← Option.some_inj.1 hs] at hconsistent ⊢
    exact roomy_setFilter h hok hconsistent
  | tabCloseRequested tabIndex =>
    rw [← Option.some_inj.1 hs] at hconsistent ⊢
    exact roomy_tabCloseRequested h hconsistent
  | setSuppression l i status =>
    rw [← Option.some_inj.1 hs]
    refine Roomy.of_same (s := s) ?_ h
    cases l <;> exact ⟨rfl, rfl, rfl, rfl, rfl⟩
  | setThrottling l i status =>
    rw [← Option.some_inj.1 hs]
    refine Roomy.of_same (s := s) ?_ h
    cases l <;> exact ⟨rfl, rfl, rfl, rfl, rfl⟩

variable (fold) in
/-- As long as every message that is kept finds room, the first tab shows the pool and no tab is
longer than the limit. -/
theorem pool_shown {conf : ViewerConf}
    (h : Machine.Run (step obj fold) (Room obj) (parseConf conf) s) : Shown s := by
  have hinit : Roomy obj (parseConf (M := M) conf) :=
    ⟨consistent_parseConf conf, ⟨{}, [], rfl, rfl, rfl, rfl, rfl⟩, fun d hd => by
      rw [List.mem_singleton.1 hd]
      exact le_rfl, fun _ => Nat.zero_le _⟩
  exact (h.invariant hinit fun _ _ _ hI hok hs => roomy_step hI hok hs).shown

theorem not_shown_keep {m : M} (h : Shown s) (hfull : s.maxMsgs ≤ s.msgPool.length)
    (hne : s.msgPool ≠ []) : ¬Shown (keep obj fold m s) := by
  intro h'
  obtain ⟨d, ds, hd, hhost, happ, hcat, hmsgs⟩ := h.first
  have hshows := shows_of_filters fold hhost happ hcat (obj m)
  have htab : (keepTab obj fold s.maxMsgs m d).msgs =
      s.msgPool.drop (s.msgPool.length - s.maxMsgs) ++ [m] := by
    rw [← hmsgs]
    exact congrArg MsgFilterDisplay.msgs (if_pos hshows)
  have hfilters : (keep obj fold m s).msgFilters =
      keepTab obj fold s.maxMsgs m d :: ds.map (keepTab obj fold s.maxMsgs m) := by
    rw [keep_msgFilters, hd, List.map_cons]
  rcases Nat.eq_zero_or_pos s.maxMsgs with hmax | hmax
  · -- no limit: the pool keeps all its messages, the tab none of them
    obtain ⟨d', ds', hd', -, -, -, hmsgs'⟩ := h'.first
    rw [hfilters, List.cons.injEq] at hd'
    rw [← hd'.1, htab, keep_msgPool (.inl hmax), hmax, Nat.sub_zero, List.drop_length,
      List.append_cancel_right_eq] at hmsgs'
    exact hne hmsgs'.symm
  · -- the tab is trimmed to the limit and then appended to
    have hle := h'.bounded (by rwa [keep_maxMsgs]) _ (hfilters ▸ List.mem_cons_self)
    rw [htab, keep_maxMsgs, List.length_append, List.length_drop, List.length_singleton] at hle
    omega

/-- A message that is kept and finds no room spoils the first tab or the limit at once. -/
theorem not_shown {m : M} (h : Shown s) (hroom : ¬Room obj (.onNewMsg m) s) :
    ¬Shown (s.onNewMsg obj fold m) := by
  simp only [Room, Classical.not_imp, not_or, not_lt] at hroom
  obtain ⟨hthr, hfull, hne⟩ := hroom
  have hsame := msgThrottled_same (obj m) { s with nMsgs := s.nMsgs + 1 }
  have hthr' : (({ s with nMsgs := s.nMsgs + 1 } : MsgViewer M).msgThrottled (obj m)).1 = false :=
    (msgThrottled_fst _ _).trans hthr
  rw [onNewMsg_eq, hthr', if_neg Bool.false_ne_true]
  refine not_shown_keep ⟨?_, ?_⟩ ?_ ?_
  · rw [hsame.msgFilters, hsame.msgPool]
    exact h.first
  · rw [hsame.msgFilters, hsame.maxMsgs]
    exact h.bounded
  · rw [hsame.msgPool, hsame.maxMsgs]
    exact hfull
  · rw [hsame.msgPool]
    exact hne

end MsgViewer

theorem msgs_accounted_second : ∃ s : MsgViewer Bool,
    Reaches (MsgViewer.step twoMsgs id) (MsgViewer.parseConf { maxMessageBufferSize := 1 }) s ∧
      s.nMsgs = 2 ∧ s.nMsgs = s.nSupMsgs + s.nThrMsgs + s.nDeleted + s.msgPool.length :=
  have h := reaches_exec [.onNewMsg false, .onNewMsg true] rfl
  ⟨_, h, rfl, MsgViewer.msgs_accounted id h⟩

/-- The viewer after the message of the host `x`. -/
def oneViewer (maxMessageBufferSize : ℕ) : MsgViewer Bool :=
  (MsgViewer.parseConf { maxMessageBufferSize }).onNewMsg twoMsgs id false

theorem pool_shown_second : MsgViewer.Shown ((oneViewer 2).onNewMsg twoMsgs id true) := by
  have h₁ : Machine.Run (MsgViewer.step twoMsgs id) (MsgViewer.Room twoMsgs)
      (MsgViewer.parseConf { maxMessageBufferSize := 2 }) (oneViewer 2) :=
    Machine.Run.next .refl (a := .onNewMsg false) (fun _ => .inr rfl) rfl
  exact MsgViewer.pool_shown id
    (h₁.next (a := .onNewMsg true) (fun _ => .inl (by decide)) rfl)

/-- A second message makes the only tab longer than a limit of one, and without a limit leaves the
first message out of it. -/
theorem second_not_shown :
    (∃ s : MsgViewer Bool, Reaches (MsgViewer.step twoMsgs id)
      (MsgViewer.parseConf { maxMessageBufferSize := 1 }) s ∧
      s.msgPool = [true] ∧ s.msgFilters.map (·.msgs) = [[false, true]] ∧ ¬MsgViewer.Shown s) ∧
    ∃ s : MsgViewer Bool, Reaches (MsgViewer.step twoMsgs id)
      (MsgViewer.parseConf { maxMessageBufferSize := 0 }) s ∧
      s.msgPool = [false, true] ∧ s.msgFilters.map (·.msgs) = [[true]] ∧ ¬MsgViewer.Shown s := by
  refine ⟨⟨_, reaches_exec [.onNewMsg false, .onNewMsg true] rfl, rfl, rfl, fun h => ?_⟩,
    _, reaches_exec [.onNewMsg false, .onNewMsg true] rfl, rfl, rfl, fun h => ?_⟩
  · exact absurd (h.bounded (by decide) _ List.mem_cons_self) (by decide)
  · obtain ⟨d, ds, hd, -, -, -, hmsgs⟩ := h.first
    have hd : [true] = d.msgs := congrArg (fun l => (l.headD {}).msgs) hd
    exact absurd (hd.trans hmsgs) (by decide)

end MfExtensions
