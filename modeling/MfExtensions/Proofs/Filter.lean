import Mathlib.Data.Set.Function
import MfExtensions.Proofs.Intersect

/-!
# A new filter tab

`setFilter` merges and intersects lists in the order of arrival as if they were in the order of the
addresses. What the tab gets climbs in each of them, so it is right at all addresses if what the
tab is to show is the front of the list of one selected key of each kind, and where the addresses
decrease with the arrival it is right only then. The exception is an intersection that comes out
empty, which the code takes for no filter at all (`setFilter_live_iff`).
-/

namespace MfExtensions

open Machine

namespace MsgViewer

variable {M : Type} {addr : M → ℕ} {pool es l l₁ l₂ : List M}

/-! ## Selections -/

variable (obj : M → QtMfMsg) (fold : Char → Char) (sel : Field → List Str)

/-- The messages of a key. -/
def listOf (pool : List M) (f : Field) (k : Str) : List M :=
  pool.filter fun m => f.of (obj m) = k

/-- A tab with these filters. -/
def tabOf (M : Type) (sel : Field → List Str) : MsgFilterDisplay M where
  hostFilter := sel .host
  appFilter := sel .app
  catFilter := sel .cat

/-- The messages of the pool that `onNewMsg` would have put in the tab. -/
def live (pool : List M) : List M := pool.filter fun m => (tabOf M sel).shows fold (obj m)

/-- The messages of a selected application and a selected host. -/
def bothOf (pool : List M) : List M :=
  pool.filter fun m => (obj m).app ∈ sel .app ∧ (obj m).host ∈ sel .host

/-- The messages are the front of the list of a selected key of each kind. -/
def Front (pool es : List M) : Prop :=
  ∀ f, sel f ≠ [] → ∃ k ∈ sel f, es <+: listOf obj pool f k

/-- The selection is of keys the dialog shows. -/
structure Offered (s : MsgViewer M) : Prop where
  shown : ∀ f, ∀ k ∈ sel f, k ∈ s.lw f
  nodup : ∀ f, (sel f).Nodup
  some : ∃ f, sel f ≠ []

/-- The merged lists of one kind. -/
def merged (addr : M → ℕ) (pool : List M) (f : Field) : List M :=
  mergeLists addr ((sel f).map (listOf obj pool f))

variable {obj fold sel} {f : Field} {m : M} {s : MsgViewer M}

theorem mem_merged : m ∈ merged obj sel addr pool f ↔ m ∈ pool ∧ f.of (obj m) ∈ sel f := by
  simp only [merged, mem_mergeLists, List.mem_map, listOf]
  constructor
  · rintro ⟨_, ⟨k, hk, rfl⟩, hm⟩
    simp only [List.mem_filter, decide_eq_true_eq] at hm
    exact ⟨hm.1, hm.2 ▸ hk⟩
  · rintro ⟨hm, hk⟩
    exact ⟨_, ⟨_, hk, rfl⟩, List.mem_filter.2 ⟨hm, by simp⟩⟩

theorem merged_nodup (hpool : pool.Nodup) (hsel : (sel f).Nodup) :
    (merged obj sel addr pool f).Nodup := by
  rw [merged, (mergeLists_perm _).nodup_iff, List.nodup_flatten]
  constructor
  · intro l hl
    obtain ⟨k, -, rfl⟩ := List.mem_map.1 hl
    exact hpool.filter _
  · refine List.pairwise_map.2 (hsel.imp fun {k k'} hne m hm hm' => hne ?_)
    simp only [listOf, List.mem_filter, decide_eq_true_eq] at hm hm'
    exact hm.2.symm.trans hm'.2

theorem mem_live : m ∈ live obj fold sel pool ↔ m ∈ pool ∧ ∀ f,
    sel f = [] ∨ containsFold fold (sel f) (f.of (obj m)) = true := by
  have hshows : (tabOf M sel).shows fold (obj m) = true ↔
      ∀ f, sel f = [] ∨ containsFold fold (sel f) (f.of (obj m)) = true := by
    simp only [MsgFilterDisplay.shows, Bool.and_eq_true, Bool.or_eq_true, List.isEmpty_iff]
    constructor
    · rintro ⟨⟨hhost, happ⟩, hcat⟩ f
      cases f with
      | host => exact hhost.symm
      | app => exact happ.symm
      | cat => exact hcat.symm
    · intro h
      exact ⟨⟨(h .host).symm, (h .app).symm⟩, (h .cat).symm⟩
  rw [live, List.mem_filter, hshows]

/-- A message with selected keys is shown. -/
theorem mem_live_of_mem (hm : m ∈ pool) (h : ∀ f, sel f ≠ [] → f.of (obj m) ∈ sel f) :
    m ∈ live obj fold sel pool := by
  refine mem_live.2 ⟨hm, fun f => ?_⟩
  by_cases hf : sel f = []
  · exact .inl hf
  · refine .inr (List.any_eq_true.2 ⟨_, h f hf, ?_⟩)
    simp

theorem climbs_merged (hinj : Set.InjOn addr {m | m ∈ pool}) (hsel : (sel f).Nodup)
    (hne : ∀ k ∈ sel f, listOf obj pool f k ≠ []) {k : Str} (hk : k ∈ sel f)
    (hes : es <+: listOf obj pool f k) : Climbs addr (merged obj sel addr pool f) es := by
  have hkey : ∀ {k m}, m ∈ listOf obj pool f k → m ∈ pool ∧ f.of (obj m) = k := by
    intro k m hm
    simpa [listOf] using hm
  refine climbs_mergeLists (List.mem_map_of_mem hk) hes (fun l hl hlk x hx e he => ?_) ?_
  · obtain ⟨k', -, rfl⟩ := List.mem_map.1 hl
    obtain ⟨hxpool, hxk⟩ := hkey hx
    obtain ⟨hepool, hek⟩ := hkey (hes.subset he)
    intro heq
    have hxe : x = e := hinj hxpool hepool heq
    exact hlk (by rw [← hxk, ← hek, hxe])
  · rw [List.Nodup, List.pairwise_map]
    refine hsel.imp_of_mem fun {k k'} hk hk' hne' heq => hne' ?_
    obtain ⟨m, hm⟩ := List.exists_mem_of_ne_nil _ (hne k hk)
    exact (hkey hm).2.symm.trans (hkey (heq ▸ hm)).2

variable (obj addr pool) in
theorem sublist_merged {k : Str} (hk : k ∈ sel f) :
    (listOf obj pool f k).Sublist (merged obj sel addr pool f) :=
  sublist_mergeLists (List.mem_map_of_mem hk)

theorem merged_eq_nil (hne : ∀ k ∈ sel f, listOf obj pool f k ≠ []) :
    merged obj sel addr pool f = [] ↔ sel f = [] := by
  constructor
  · intro h
    by_contra hf
    obtain ⟨k, hk⟩ := List.exists_mem_of_ne_nil _ hf
    have hsub := sublist_merged addr pool obj hk
    rw [h, List.sublist_nil] at hsub
    exact hne k hk hsub
  · intro h
    rw [merged, h]
    rfl

/-- The intersection of the applications and the hosts. -/
def appHost (obj : M → QtMfMsg) (sel : Field → List Str) (addr : M → ℕ) (pool : List M) : List M :=
  listIntersect addr (merged obj sel addr pool .app) (merged obj sel addr pool .host)

variable (obj sel) in
theorem inj_merged (hinj : Set.InjOn addr {m | m ∈ pool}) (f g : Field) :
    ∀ x ∈ merged obj sel addr pool f, ∀ y ∈ merged obj sel addr pool g, addr x = addr y → x = y :=
  fun _ hx _ hy => hinj (mem_merged.1 hx).1 (mem_merged.1 hy).1

theorem mem_bothOf : m ∈ bothOf obj sel pool ↔
    m ∈ pool ∧ (obj m).app ∈ sel .app ∧ (obj m).host ∈ sel .host := by
  simp [bothOf]

theorem mem_appHost (hinj : Set.InjOn addr {m | m ∈ pool}) (hm : m ∈ appHost obj sel addr pool) :
    m ∈ bothOf obj sel pool := by
  obtain ⟨ha, hh⟩ := mem_listIntersect (inj_merged obj sel hinj _ _) hm
  exact mem_bothOf.2 ⟨(mem_merged.1 ha).1, (mem_merged.1 ha).2, (mem_merged.1 hh).2⟩

theorem mem_sel_of_bothOf (hm : m ∈ bothOf obj sel pool) (hf : f ≠ .cat) :
    f.of (obj m) ∈ sel f := by
  cases f with
  | host => exact (mem_bothOf.1 hm).2.2
  | app => exact (mem_bothOf.1 hm).2.1
  | cat => exact absurd rfl hf

theorem climbs_of_appHost (hinj : Set.InjOn addr {m | m ∈ pool})
    (h : Climbs addr (appHost obj sel addr pool) es) (hf : f ≠ .cat) :
    Climbs addr (merged obj sel addr pool f) es := by
  obtain ⟨happ, hhost⟩ := listIntersect_climbs (inj_merged obj sel hinj .app .host)
  cases f with
  | host => exact hhost.trans h
  | app => exact happ.trans h
  | cat => exact absurd rfl hf

/-- A message that can be climbed to in the merged applications and in the merged hosts is in their
intersection. -/
theorem appHost_ne_nil_of_climbs
    (h : ∀ f, f ≠ .cat → Climbs addr (merged obj sel addr pool f) [m]) :
    appHost obj sel addr pool ≠ [] := by
  intro hnil
  have hclimb := climbs_listIntersect (h .app (by simp)) (h .host (by simp))
  rw [← appHost, hnil] at hclimb
  cases hclimb

variable (obj sel) in
theorem inj_appHost (hinj : Set.InjOn addr {m | m ∈ pool}) : ∀ x ∈ appHost obj sel addr pool,
    ∀ y ∈ merged obj sel addr pool .cat, addr x = addr y → x = y :=
  fun _ hx _ hy => hinj (mem_bothOf.1 (mem_appHost hinj hx)).1 (mem_merged.1 hy).1

/-! ## The messages of the tab -/

theorem not_two (f g : Field) : ¬∀ h, h = f ∨ h = g := by
  intro h
  have h₁ := h .host
  have h₂ := h .app
  have h₃ := h .cat
  cases f <;> cases g <;> simp at h₁ h₂ h₃

theorem listOf_ne_nil (hs : Consistent obj s) (hsel : Offered sel s) {k : Str} (hk : k ∈ sel f) :
    listOf obj s.msgPool f k ≠ [] :=
  (hs.indexed f).mem_keys.1 (hs.shown f ▸ hsel.shown f k hk)

theorem mergeKeys_eq_merged (hs : Consistent obj s) (hsel : Offered sel s) (f : Field) :
    mergeKeys addr (s.msgs f) (sel f) = merged obj sel addr s.msgPool f :=
  mergeKeys_eq (hs.indexed f) fun k hk => hs.shown f ▸ hsel.shown f k hk

variable (addr) in
/-- The messages of a new tab, by the kinds that are used. -/
theorem filterMsgs_cases (hs : Consistent obj s) (hsel : Offered sel s) :
    (∃ f, (∀ g, sel g ≠ [] ↔ g = f) ∧
      s.filterMsgs addr (sel .host) (sel .app) (sel .cat) = merged obj sel addr s.msgPool f) ∨
    (∃ f g, (∀ h, sel h ≠ [] ↔ h = f ∨ h = g) ∧
      s.filterMsgs addr (sel .host) (sel .app) (sel .cat) =
        listIntersect addr (merged obj sel addr s.msgPool f) (merged obj sel addr s.msgPool g)) ∨
    ((∀ f, sel f ≠ []) ∧ s.filterMsgs addr (sel .host) (sel .app) (sel .cat) =
      if (appHost obj sel addr s.msgPool).isEmpty then merged obj sel addr s.msgPool .cat
      else listIntersect addr (appHost obj sel addr s.msgPool)
        (merged obj sel addr s.msgPool .cat)) := by
  have hempty : ∀ f, (merged obj sel addr s.msgPool f).isEmpty = (sel f).isEmpty := fun f => by
    rw [Bool.eq_iff_iff, List.isEmpty_iff, List.isEmpty_iff,
      merged_eq_nil fun k hk => listOf_ne_nil hs hsel hk]
  have hfilter : s.filterMsgs addr (sel .host) (sel .app) (sel .cat) =
      let result := merged obj sel addr s.msgPool .app
      let result := if (sel .host).isEmpty then result
        else if result.isEmpty then merged obj sel addr s.msgPool .host
        else listIntersect addr result (merged obj sel addr s.msgPool .host)
      if (sel .cat).isEmpty then result
      else if result.isEmpty then merged obj sel addr s.msgPool .cat
      else listIntersect addr result (merged obj sel addr s.msgPool .cat) := by
    rw [← mergeKeys_eq_merged hs hsel, ← mergeKeys_eq_merged hs hsel, ← mergeKeys_eq_merged hs hsel]
    rfl
  rw [hfilter]
  have hall : ∀ {p : Field → Prop}, (∀ f, p f) ↔ p .host ∧ p .app ∧ p .cat := by
    intro p
    constructor
    · exact fun h => ⟨h .host, h .app, h .cat⟩
    · rintro ⟨h₁, h₂, h₃⟩ f
      cases f <;> assumption
  by_cases hh : sel .host = [] <;> by_cases ha : sel .app = [] <;> by_cases hc : sel .cat = []
  · obtain ⟨f, hf⟩ := hsel.some
    cases f <;> contradiction
  · exact .inl ⟨.cat, by simp [hall, hh, ha, hc], by simp [hempty, hh, ha, hc]⟩
  · exact .inl ⟨.app, by simp [hall, hh, ha, hc], by simp [hh, hc]⟩
  · exact .inr (.inl ⟨.app, .cat, by simp [hall, hh, ha, hc], by simp [hempty, hh, ha, hc]⟩)
  · exact .inl ⟨.host, by simp [hall, hh, ha, hc], by simp [hempty, hh, ha, hc]⟩
  · exact .inr (.inl ⟨.host, .cat, by simp [hall, hh, ha, hc], by simp [hempty, hh, ha, hc]⟩)
  · exact .inr (.inl ⟨.app, .host, by simp [hall, hh, ha, hc], by simp [hempty, hh, ha, hc]⟩)
  · exact .inr (.inr ⟨by simp [hall, hh, ha, hc], by simp [hempty, appHost, hh, ha, hc]⟩)

theorem filterMsgs_all (hs : Consistent obj s) (hsel : Offered sel s) (hall : ∀ f, sel f ≠ []) :
    s.filterMsgs addr (sel .host) (sel .app) (sel .cat) =
      if (appHost obj sel addr s.msgPool).isEmpty then merged obj sel addr s.msgPool .cat
      else listIntersect addr (appHost obj sel addr s.msgPool)
        (merged obj sel addr s.msgPool .cat) := by
  rcases filterMsgs_cases addr hs hsel with ⟨f, hused, -⟩ | ⟨f, g, hused, -⟩ | ⟨-, heq⟩
  · have hf : ∀ g, g = f := fun g => (hused g).1 (hall g)
    exact absurd ((hf .host).trans (hf .app).symm) (by simp)
  · exact absurd (fun h => (hused h).1 (hall h)) (not_two f g)
  · exact heq

/-- What an address assignment cannot spoil: the messages to show are the front of the list of one
selected key of each kind, and, where there are none of three kinds, the intersection of the first
two is not empty; or the first two kinds leave nothing, or the only message, to a category that
holds nothing else. -/
def Agrees (obj : M → QtMfMsg) (fold : Char → Char) (sel : Field → List Str) (pool : List M) :
    Prop :=
  (Front obj sel pool (live obj fold sel pool) ∧
    (live obj fold sel pool = [] → (∀ f, sel f ≠ []) →
      ∃ m, ∀ f, f ≠ .cat → ∃ k ∈ sel f, (listOf obj pool f k).head? = some m)) ∨
  ((∀ f, sel f ≠ []) ∧ ∃ k, sel .cat = [k] ∧ live obj fold sel pool = listOf obj pool .cat k ∧
    (bothOf obj sel pool = [] ∨
      ∃ m, bothOf obj sel pool = [m] ∧ live obj fold sel pool = [m]))

/-- A list of messages with selected keys that climbs to the messages to show holds no others. -/
theorem eq_live (h : Climbs addr l (live obj fold sel pool)) (hl : l.Nodup)
    (hmem : ∀ m ∈ l, m ∈ pool ∧ ∀ f, sel f ≠ [] → f.of (obj m) ∈ sel f) :
    l = live obj fold sel pool :=
  h.eq_of_subset hl fun m hm => mem_live_of_mem (hmem m hm).1 (hmem m hm).2

theorem prefix_of_head? (h : l.head? = some m) : [m] <+: l := by
  obtain ⟨l', rfl⟩ := List.head?_eq_some_iff.1 h
  exact ⟨l', rfl⟩

section Pool

variable (hs : Consistent obj s) (hsel : Offered sel s) (hpool : s.msgPool.Nodup)
  (hinj : Set.InjOn addr {m | m ∈ s.msgPool})
include hs hsel hpool hinj

omit hpool in
theorem climbs_of_prefix {k : Str} (hk : k ∈ sel f) (hes : es <+: listOf obj s.msgPool f k) :
    Climbs addr (merged obj sel addr s.msgPool f) es :=
  climbs_merged hinj (hsel.nodup f) (fun _ hk => listOf_ne_nil hs hsel hk) hk hes

omit hs in
theorem listIntersect_merged_nodup (f g : Field) :
    (listIntersect addr (merged obj sel addr s.msgPool f)
      (merged obj sel addr s.msgPool g)).Nodup :=
  (listIntersect_climbs (inj_merged obj sel hinj _ _)).1.sublist.nodup
    (merged_nodup hpool (hsel.nodup f))

omit hpool in
/-- The first message of a selected application and a selected host is in their intersection. -/
theorem appHost_ne_nil {m : M}
    (hm : ∀ f, f ≠ .cat → ∃ k ∈ sel f, (listOf obj s.msgPool f k).head? = some m) :
    appHost obj sel addr s.msgPool ≠ [] := by
  refine appHost_ne_nil_of_climbs (m := m) fun f hf => ?_
  obtain ⟨k, hk, hhead⟩ := hm f hf
  exact climbs_of_prefix hs hsel hinj hk (prefix_of_head? hhead)

/-- The messages to show are the front of the list of a key of each kind. -/
theorem filterMsgs_of_front (hes : Front obj sel s.msgPool (live obj fold sel s.msgPool))
    (hsome : live obj fold sel s.msgPool = [] → (∀ f, sel f ≠ []) →
      ∃ m, ∀ f, f ≠ .cat → ∃ k ∈ sel f, (listOf obj s.msgPool f k).head? = some m) :
    s.filterMsgs addr (sel .host) (sel .app) (sel .cat) = live obj fold sel s.msgPool := by
  have hfront : ∀ {f}, sel f ≠ [] →
      Climbs addr (merged obj sel addr s.msgPool f) (live obj fold sel s.msgPool) := by
    intro f hf
    obtain ⟨k, hk, hpre⟩ := hes f hf
    exact climbs_of_prefix hs hsel hinj hk hpre
  rcases filterMsgs_cases addr hs hsel with ⟨f, hused, heq⟩ | ⟨f, g, hused, heq⟩ | ⟨hall, heq⟩
  · rw [heq]
    refine eq_live (hfront ((hused f).2 rfl)) (merged_nodup hpool (hsel.nodup f))
      fun m hm => ⟨(mem_merged.1 hm).1, fun g hg => ?_⟩
    rw [(hused g).1 hg]
    exact (mem_merged.1 hm).2
  · rw [heq]
    refine eq_live (climbs_listIntersect (hfront ((hused f).2 (.inl rfl)))
      (hfront ((hused g).2 (.inr rfl)))) (listIntersect_merged_nodup hsel hpool hinj f g)
      fun m hm => ?_
    obtain ⟨hmf, hmg⟩ := mem_listIntersect (inj_merged obj sel hinj _ _) hm
    refine ⟨(mem_merged.1 hmf).1, fun h hh => ?_⟩
    rcases (hused h).1 hh with rfl | rfl
    · exact (mem_merged.1 hmf).2
    · exact (mem_merged.1 hmg).2
  · have hd : Climbs addr (appHost obj sel addr s.msgPool) (live obj fold sel s.msgPool) :=
      climbs_listIntersect (hfront (hall .app)) (hfront (hall .host))
    have hne : appHost obj sel addr s.msgPool ≠ [] := by
      intro hnil
      rw [hnil] at hd
      obtain ⟨m, hm⟩ := hsome (List.sublist_nil.1 hd.sublist) hall
      exact appHost_ne_nil hs hsel hinj hm hnil
    rw [heq, if_neg (by simpa using hne)]
    refine eq_live (climbs_listIntersect hd (hfront (hall .cat)))
      ((listIntersect_climbs (inj_appHost obj sel hinj)).1.sublist.nodup
        (listIntersect_merged_nodup hsel hpool hinj .app .host)) fun m hm => ?_
    obtain ⟨hmd, hmc⟩ := mem_listIntersect (inj_appHost obj sel hinj) hm
    have hboth := mem_appHost hinj hmd
    refine ⟨(mem_bothOf.1 hboth).1, fun f _ => ?_⟩
    by_cases hf : f = .cat
    · exact hf ▸ (mem_merged.1 hmc).2
    · exact mem_sel_of_bothOf hboth hf

/-- The messages to show are those of the only selected category, and the applications and hosts
leave nothing or the one message. -/
theorem filterMsgs_of_category (hall : ∀ f, sel f ≠ []) {k : Str} (hcat : sel .cat = [k])
    (hes : live obj fold sel s.msgPool = listOf obj s.msgPool .cat k)
    (hboth : bothOf obj sel s.msgPool = [] ∨
      ∃ m, bothOf obj sel s.msgPool = [m] ∧ live obj fold sel s.msgPool = [m]) :
    s.filterMsgs addr (sel .host) (sel .app) (sel .cat) = live obj fold sel s.msgPool := by
  have hmerged : merged obj sel addr s.msgPool .cat = live obj fold sel s.msgPool := by
    rw [hes, merged, hcat]
    simp [mergeLists, merge]
  have hnodup : (appHost obj sel addr s.msgPool).Nodup :=
    listIntersect_merged_nodup hsel hpool hinj .app .host
  rw [filterMsgs_all hs hsel hall]
  split_ifs with hempty
  · exact hmerged
  · have hne : appHost obj sel addr s.msgPool ≠ [] := by simpa using hempty
    obtain ⟨m, hm⟩ := List.exists_mem_of_ne_nil _ hne
    rcases hboth with hboth | ⟨m', hboth, hlive⟩
    · exact absurd (hboth ▸ mem_appHost hinj hm) (by simp)
    · have hsub : appHost obj sel addr s.msgPool ⊆ [m'] := fun x hx => hboth ▸ mem_appHost hinj hx
      have hclimbs : Climbs addr (appHost obj sel addr s.msgPool) [m'] :=
        .of_max (List.mem_singleton.1 (hsub hm) ▸ hm) fun x hx hxm =>
          absurd (List.mem_singleton.1 (hsub hx)) hxm
      have happHost := hclimbs.eq_of_subset hnodup hsub
      rw [hmerged, hlive, happHost]
      simp [listIntersect]

theorem filterMsgs_of_agrees (h : Agrees obj fold sel s.msgPool) :
    s.filterMsgs addr (sel .host) (sel .app) (sel .cat) = live obj fold sel s.msgPool := by
  rcases h with ⟨hes, hsome⟩ | ⟨hall, k, hcat, hes, hboth⟩
  · exact filterMsgs_of_front hs hsel hpool hinj hes hsome
  · exact filterMsgs_of_category hs hsel hpool hinj hall hcat hes hboth

end Pool

/-! ## Addresses -/

section Addresses

variable [DecidableEq M]

/-- Addresses that decrease with the arrival, but for `p` and `x` at the top. -/
def topped (pool : List M) (x p m : M) : ℕ :=
  if m = x then pool.length + 2
  else if m = p then pool.length + 1
  else pool.length - pool.idxOf m

/-- Addresses that decrease with the arrival. -/
def descending (pool : List M) (m : M) : ℕ := pool.length - pool.idxOf m

theorem descending_injOn (pool : List M) : Set.InjOn (descending pool) {m | m ∈ pool} := by
  intro m hm m' hm' heq
  have h := List.idxOf_lt_length_of_mem hm
  have h' := List.idxOf_lt_length_of_mem hm'
  have hidx : pool.idxOf m = pool.idxOf m' := by
    unfold descending at heq
    omega
  exact (List.idxOf_inj hm).1 hidx

theorem topped_injOn (pool : List M) (x p : M) : Set.InjOn (topped pool x p) {m | m ∈ pool} := by
  intro m hm m' hm' heq
  have hdesc := descending_injOn pool hm hm'
  unfold descending at hdesc
  unfold topped at heq
  by_cases hx : m = x
  · by_cases hx' : m' = x
    · rw [hx, hx']
    · rw [if_pos hx, if_neg hx'] at heq
      split_ifs at heq <;> omega
  · by_cases hx' : m' = x
    · rw [if_neg hx, if_pos hx'] at heq
      split_ifs at heq <;> omega
    · rw [if_neg hx, if_neg hx'] at heq
      by_cases hp : m = p
      · by_cases hp' : m' = p
        · rw [hp, hp']
        · rw [if_pos hp, if_neg hp'] at heq
          omega
      · by_cases hp' : m' = p
        · rw [if_neg hp, if_pos hp'] at heq
          omega
        · rw [if_neg hp, if_neg hp'] at heq
          exact hdesc heq

theorem descending_decreasing (hpool : pool.Nodup) : Decreasing (descending pool) pool := by
  rw [Decreasing, List.pairwise_iff_getElem]
  intro i j hi hj hij
  have h₁ : pool.idxOf pool[i] = i := hpool.idxOf_getElem i hi
  have h₂ : pool.idxOf pool[j] = j := hpool.idxOf_getElem j hj
  unfold descending
  omega

end Addresses

/-! ## When a new tab agrees with a live one -/

theorem eq_singleton {α : Type} {l : List α} {x : α} (hl : l.Nodup) (hne : l ≠ [])
    (h : ∀ y ∈ l, y = x) : l = [x] := by
  by_contra hx
  rcases (hl.ne_singleton_iff x).1 hx with hnil | ⟨y, hy, hyx⟩
  · exact hne hnil
  · exact hyx (h y hy)

section Agree

variable [DecidableEq M] (hs : Consistent obj s) (hsel : Offered sel s) (hpool : s.msgPool.Nodup)
include hs hsel hpool

/-- At decreasing addresses what a kind is climbed to is the front of the list of a key. -/
theorem prefix_of_climbs_merged (hf : sel f ≠ []) (hes : es.Sublist s.msgPool)
    (h : Climbs (descending s.msgPool) (merged obj sel (descending s.msgPool) s.msgPool f) es) :
    ∃ k ∈ sel f, es <+: listOf obj s.msgPool f k := by
  have hdesc := descending_decreasing hpool
  have hlists : ∀ l ∈ (sel f).map (listOf obj s.msgPool f),
      l ≠ [] ∧ Decreasing (descending s.msgPool) l := by
    intro l hl
    obtain ⟨k, hk, rfl⟩ := List.mem_map.1 hl
    exact ⟨listOf_ne_nil hs hsel hk, hdesc.sublist List.filter_sublist⟩
  obtain ⟨l, hl, hpre⟩ := prefix_of_climbs (by simpa using hf) (fun l hl => (hlists l hl).1)
    (fun l hl => (hlists l hl).2) (hdesc.sublist hes) h
  obtain ⟨k, hk, rfl⟩ := List.mem_map.1 hl
  exact ⟨k, hk, hpre⟩

theorem head_of_climbs_merged (hf : sel f ≠ []) {m : M} (hm : m ∈ s.msgPool)
    (h : Climbs (descending s.msgPool) (merged obj sel (descending s.msgPool) s.msgPool f)
      (m :: es)) : ∃ k ∈ sel f, (listOf obj s.msgPool f k).head? = some m := by
  obtain ⟨k, hk, l, hl⟩ := prefix_of_climbs_merged hs hsel hpool hf
    (List.singleton_sublist.2 hm) h.head
  exact ⟨k, hk, by rw [← hl]; rfl⟩

omit hpool in
/-- With a message of both at the top address the intersection is not empty, so that the messages
shown are climbed to in it. -/
theorem climbs_of_topped (hall : ∀ f, sel f ≠ [])
    (h : ∀ addr : M → ℕ, Set.InjOn addr {m | m ∈ s.msgPool} →
      s.filterMsgs addr (sel .host) (sel .app) (sel .cat) = live obj fold sel s.msgPool)
    {x : M} (hx : x ∈ bothOf obj sel s.msgPool) (p : M) :
    Climbs (topped s.msgPool x p) (appHost obj sel (topped s.msgPool x p) s.msgPool)
      (live obj fold sel s.msgPool) := by
  have hinj := topped_injOn s.msgPool x p
  have hmax : ∀ f, f ≠ .cat → Climbs (topped s.msgPool x p)
      (merged obj sel (topped s.msgPool x p) s.msgPool f) [x] := by
    intro f hf
    refine .of_max (mem_merged.2 ⟨(mem_bothOf.1 hx).1, mem_sel_of_bothOf hx hf⟩) fun y _ hyx => ?_
    unfold topped
    rw [if_neg hyx, if_pos rfl]
    split_ifs <;> omega
  have hne := appHost_ne_nil_of_climbs hmax
  have heq := h _ hinj
  rw [filterMsgs_all hs hsel hall, if_neg (by simpa using hne)] at heq
  rw [← heq]
  exact (listIntersect_climbs (inj_appHost obj sel hinj)).1

/-- With a message of both at the top address, the first message shown comes after none of its
application and none of its host. -/
theorem head_of_topped (hall : ∀ f, sel f ≠ [])
    (h : ∀ addr : M → ℕ, Set.InjOn addr {m | m ∈ s.msgPool} →
      s.filterMsgs addr (sel .host) (sel .app) (sel .cat) = live obj fold sel s.msgPool)
    {x e : M} (hx : x ∈ bothOf obj sel s.msgPool) (hlive : live obj fold sel s.msgPool = e :: es) :
    live obj fold sel s.msgPool ⊆ bothOf obj sel s.msgPool ∧
      (x ≠ e → ∀ f, f ≠ .cat → ∃ k ∈ sel f, (listOf obj s.msgPool f k).head? = some e) := by
  have hwalk := climbs_of_topped hs hsel hall h hx
  have hsubset : live obj fold sel s.msgPool ⊆ bothOf obj sel s.msgPool := fun m hm =>
    mem_appHost (topped_injOn s.msgPool x x) ((hwalk x).sublist.subset hm)
  refine ⟨hsubset, fun hxe f hf => ?_⟩
  have he : e ∈ bothOf obj sel s.msgPool := hsubset (hlive ▸ List.mem_cons_self)
  have hk := mem_sel_of_bothOf he hf
  refine ⟨f.of (obj e), hk, ?_⟩
  have hmem : e ∈ listOf obj s.msgPool f (f.of (obj e)) :=
    List.mem_filter.2 ⟨(mem_bothOf.1 he).1, by simp⟩
  obtain ⟨p, l, hl⟩ := List.exists_cons_of_ne_nil (List.ne_nil_of_mem hmem)
  rw [hl, List.head?_cons, Option.some_inj]
  by_contra hpe
  -- the first message of the key, at the second address, blocks the way
  have hsub : [p, e].Sublist (merged obj sel (topped s.msgPool x p) s.msgPool f) := by
    refine List.Sublist.trans ?_ (sublist_merged _ _ obj hk)
    rw [hl]
    refine List.Sublist.cons_cons p (List.singleton_sublist.2 ?_)
    exact (List.mem_cons.1 (hl ▸ hmem)).resolve_left (Ne.symm hpe)
  have hclimb := climbs_of_appHost (topped_injOn s.msgPool x p) (hwalk p) hf
  rw [hlive] at hclimb
  have hlt := hclimb.lt_of_sublist (merged_nodup hpool (hsel.nodup f)) hsub
  unfold topped at hlt
  rw [if_neg (Ne.symm hxe), if_neg (Ne.symm hpe)] at hlt
  by_cases hpx : p = x
  · rw [if_pos hpx] at hlt
    omega
  · rw [if_neg hpx, if_pos rfl] at hlt
    omega

/-- The intersection of applications and hosts comes out empty: what is shown is the category. -/
theorem category_of_filterMsgs (hall : ∀ f, sel f ≠ [])
    (h : ∀ addr : M → ℕ, Set.InjOn addr {m | m ∈ s.msgPool} →
      s.filterMsgs addr (sel .host) (sel .app) (sel .cat) = live obj fold sel s.msgPool)
    (hempty : appHost obj sel (descending s.msgPool) s.msgPool = [])
    (hshown : merged obj sel (descending s.msgPool) s.msgPool .cat =
      live obj fold sel s.msgPool) :
    ∃ k, sel .cat = [k] ∧ live obj fold sel s.msgPool = listOf obj s.msgPool .cat k ∧
      (bothOf obj sel s.msgPool = [] ∨
        ∃ m, bothOf obj sel s.msgPool = [m] ∧ live obj fold sel s.msgPool = [m]) := by
  have hne : live obj fold sel s.msgPool ≠ [] := by
    rw [← hshown, ne_eq, merged_eq_nil fun k hk => listOf_ne_nil hs hsel hk]
    exact hall .cat
  obtain ⟨k, hk, hpre⟩ := prefix_of_climbs_merged hs hsel hpool (hall .cat) List.filter_sublist
    (by rw [hshown]; exact Climbs.of_prefix List.prefix_rfl)
  have hsublist : ∀ {k'}, k' ∈ sel .cat →
      (listOf obj s.msgPool .cat k').Sublist (live obj fold sel s.msgPool) :=
    fun hk' => hshown ▸ sublist_merged _ _ obj hk'
  have honly : ∀ k' ∈ sel .cat, k' = k := by
    intro k' hk'
    obtain ⟨y, hy⟩ := List.exists_mem_of_ne_nil _ (listOf_ne_nil hs hsel hk')
    have hy' := hpre.subset ((hsublist hk').subset hy)
    simp only [listOf, List.mem_filter, decide_eq_true_eq] at hy hy'
    exact hy.2.symm.trans hy'.2
  have hcat : sel .cat = [k] := eq_singleton (hsel.nodup .cat) (hall .cat) honly
  refine ⟨k, hcat, hpre.sublist.eq_of_length_le (hsublist hk).length_le, ?_⟩
  by_cases hboth : bothOf obj sel s.msgPool = []
  · exact .inl hboth
  · obtain ⟨e, es, hes⟩ := List.exists_cons_of_ne_nil hne
    obtain ⟨x, hx⟩ := List.exists_mem_of_ne_nil _ hboth
    have hlive := (head_of_topped hs hsel hpool hall h hx hes).1
    have heq : ∀ x ∈ bothOf obj sel s.msgPool, x = e := by
      intro x hx
      by_contra hxe
      have hhead := (head_of_topped hs hsel hpool hall h hx hes).2 hxe
      exact appHost_ne_nil hs hsel (descending_injOn s.msgPool) hhead hempty
    refine .inr ⟨e, ?_, ?_⟩
    · exact eq_singleton (hpool.filter _) hboth heq
    · exact eq_singleton (hpool.filter _) hne fun m hm => heq m (hlive hm)

theorem agrees_of_filterMsgs (h : ∀ addr : M → ℕ, Set.InjOn addr {m | m ∈ s.msgPool} →
    s.filterMsgs addr (sel .host) (sel .app) (sel .cat) = live obj fold sel s.msgPool) :
    Agrees obj fold sel s.msgPool := by
  have hinj := descending_injOn s.msgPool
  have hsub : (live obj fold sel s.msgPool).Sublist s.msgPool := List.filter_sublist
  have hdown := h _ hinj
  rcases filterMsgs_cases (descending s.msgPool) hs hsel with ⟨f, hused, heq⟩ |
    ⟨f, g, hused, heq⟩ | ⟨hall, heq⟩
  · refine .inl ⟨fun g hg => ?_, fun _ hall => ?_⟩
    · obtain rfl := (hused g).1 hg
      refine prefix_of_climbs_merged hs hsel hpool hg hsub ?_
      rw [← hdown, heq]
      exact Climbs.of_prefix List.prefix_rfl
    · exact absurd (fun h => .inl ((hused h).1 (hall h))) (not_two f f)
  · rw [heq] at hdown
    obtain ⟨hf, hg⟩ := listIntersect_climbs (inj_merged obj sel hinj f g)
    rw [hdown] at hf hg
    refine .inl ⟨fun h hh => ?_, fun _ hall => ?_⟩
    · rcases (hused h).1 hh with rfl | rfl
      · exact prefix_of_climbs_merged hs hsel hpool hh hsub hf
      · exact prefix_of_climbs_merged hs hsel hpool hh hsub hg
    · exact absurd (fun h => (hused h).1 (hall h)) (not_two f g)
  · rw [heq] at hdown
    split_ifs at hdown with hempty
    · exact .inr ⟨hall, category_of_filterMsgs hs hsel hpool hall h
        (List.isEmpty_iff.1 hempty) hdown⟩
    · obtain ⟨hd, hcat⟩ := listIntersect_climbs (inj_appHost obj sel hinj)
      rw [hdown] at hd hcat
      refine .inl ⟨fun f _ => prefix_of_climbs_merged hs hsel hpool (hall f) hsub ?_, fun _ _ => ?_⟩
      · by_cases hf : f = .cat
        · exact hf ▸ hcat
        · exact climbs_of_appHost hinj hd hf
      · have hne : appHost obj sel (descending s.msgPool) s.msgPool ≠ [] := by simpa using hempty
        obtain ⟨m, ms, hm⟩ := List.exists_cons_of_ne_nil hne
        have hboth := mem_appHost hinj (hm ▸ List.mem_cons_self)
        have hclimbs : Climbs (descending s.msgPool)
            (appHost obj sel (descending s.msgPool) s.msgPool) (m :: ms) :=
          hm ▸ Climbs.of_prefix List.prefix_rfl
        exact ⟨m, fun f hf => head_of_climbs_merged hs hsel hpool (hall f) (mem_bothOf.1 hboth).1
          (climbs_of_appHost hinj hclimbs hf)⟩

end Agree

/-- A message that comes in is not one of those that are kept. -/
def Fresh : ViewerAct M → MsgViewer M → Prop
  | .onNewMsg m, s => m ∉ s.msgPool
  | _, _ => True

variable [DecidableEq M]

theorem consistent_nodup {conf : ViewerConf}
    (h : Machine.Run (step obj fold) Fresh (parseConf conf) s) :
    Consistent obj s ∧ s.msgPool.Nodup := by
  refine h.invariant (I := fun s => Consistent obj s ∧ s.msgPool.Nodup)
    ⟨consistent_parseConf conf, List.nodup_nil⟩ fun a s s' ⟨hs, hpool⟩ hok hstep =>
      ⟨consistent_step fold hs hstep, ?_⟩
  cases a with
  | onNewMsg m =>
    rw [← Option.some_inj.1 hstep]
    rcases msgPool_onNewMsg fold hs m with heq | ⟨ms', hsuffix, heq⟩
    · rwa [heq]
    · rw [heq, List.nodup_append]
      refine ⟨hpool.sublist hsuffix.sublist, List.nodup_singleton m, fun x hx y hy => ?_⟩
      rw [List.mem_singleton.1 hy]
      rintro rfl
      exact hok (hsuffix.subset hx)
  | clear =>
    rw [← Option.some_inj.1 hstep]
    exact List.nodup_nil
  | setFilter addr hostFilter appFilter catFilter =>
    rw [← Option.some_inj.1 hstep]
    unfold setFilter
    dsimp only
    split_ifs <;> exact hpool
  | tabCloseRequested tabIndex =>
    rw [← Option.some_inj.1 hstep]
    unfold tabCloseRequested
    split_ifs <;> exact hpool
  | setSuppression l i status =>
    rw [← Option.some_inj.1 hstep]
    cases l <;> exact hpool
  | setThrottling l i status =>
    rw [← Option.some_inj.1 hstep]
    cases l <;> exact hpool

/-- A new tab holds the messages a live tab would have at all addresses if and only if they are the
first messages of one selected key of each kind, or one of the exceptions applies. -/
theorem setFilter_live_iff {conf : ViewerConf}
    (h : Machine.Run (step obj fold) Fresh (parseConf conf) s) (hsel : Offered sel s)
    (hnew : ∀ d ∈ s.msgFilters,
      d.filterExpression ≠ filterExpression (sel .host) (sel .app) (sel .cat)) :
    (∀ addr : M → ℕ, Set.InjOn addr {m | m ∈ s.msgPool} →
      ∃ d, (s.setFilter addr (sel .host) (sel .app) (sel .cat)).msgFilters = s.msgFilters ++ [d] ∧
        d.msgs = live obj fold sel s.msgPool) ↔ Agrees obj fold sel s.msgPool := by
  obtain ⟨hs, hpool⟩ := consistent_nodup h
  have htab : ∀ addr : M → ℕ, (∃ d,
      (s.setFilter addr (sel .host) (sel .app) (sel .cat)).msgFilters = s.msgFilters ++ [d] ∧
        d.msgs = live obj fold sel s.msgPool) ↔
      s.filterMsgs addr (sel .host) (sel .app) (sel .cat) = live obj fold sel s.msgPool := by
    intro addr
    have hsome : ¬((sel .host).isEmpty && (sel .app).isEmpty && (sel .cat).isEmpty) = true := by
      obtain ⟨f, hf⟩ := hsel.some
      simp only [Bool.and_eq_true, List.isEmpty_iff]
      rintro ⟨⟨hh, ha⟩, hc⟩
      cases f <;> contradiction
    have hany : ¬(s.msgFilters.any fun d =>
        d.filterExpression = filterExpression (sel .host) (sel .app) (sel .cat)) = true := by
      simpa using hnew
    rw [setFilter, if_neg hsome]
    simp only [if_neg hany, List.append_cancel_left_eq, List.cons.injEq, and_true, exists_eq_left']
  simp only [htab]
  exact ⟨agrees_of_filterMsgs hs hsel hpool, fun hagrees addr hinj =>
    filterMsgs_of_agrees hs hsel hpool hinj hagrees⟩

end MsgViewer

/-- The viewer after two messages of the application `a`, of the hosts `x` and `y`. -/
def twoViewer : MsgViewer Bool :=
  ((MsgViewer.parseConf {}).onNewMsg twoMsgs id false).onNewMsg twoMsgs id true

theorem twoViewer_run :
    Machine.Run (MsgViewer.step twoMsgs id) MsgViewer.Fresh (MsgViewer.parseConf {}) twoViewer := by
  have h₁ : Machine.Run (MsgViewer.step twoMsgs id) MsgViewer.Fresh (MsgViewer.parseConf {}) _ :=
    Machine.Run.next .refl (a := .onNewMsg false) (List.not_mem_nil) rfl
  exact h₁.next (a := .onNewMsg true) (show true ∉ [false] by decide) rfl

/-- The selection of the host `y` and these applications. -/
def hostSel (app : List Str) : Field → List Str
  | .host => ["y".toList]
  | .app => app
  | .cat => []

theorem hostSel_offered {app : List Str} (h : app.all (· = "a".toList) = true) (happ : app.Nodup) :
    MsgViewer.Offered (hostSel app) twoViewer where
  shown f k hk := by
    cases f with
    | host =>
      rw [List.mem_singleton.1 hk]
      decide
    | app =>
      rw [of_decide_eq_true (List.all_eq_true.1 h k hk)]
      decide
    | cat => exact absurd hk List.not_mem_nil
  nodup f := by
    cases f with
    | host => exact List.nodup_singleton _
    | app => exact happ
    | cat => exact List.nodup_nil
  some := ⟨.host, by simp [hostSel]⟩

/-- The first message is stored after the second. -/
def reversed (b : Bool) : ℕ := if b then 0 else 1

theorem reversed_injOn : Set.InjOn reversed {m | m ∈ twoViewer.msgPool} := by
  intro b _ b' _
  cases b <;> cases b' <;> simp [reversed]

theorem twoViewer_expression {app : List Str}
    (h : MsgViewer.filterExpression ["y".toList] app [] ≠ []) :
    ∀ d ∈ twoViewer.msgFilters, d.filterExpression ≠
      MsgViewer.filterExpression (hostSel app .host) (hostSel app .app) (hostSel app .cat) := by
  intro d hd
  have hd' : d ∈ [({ msgs := [false, true] } : MsgFilterDisplay Bool)] := hd
  rw [List.mem_singleton.1 hd']
  exact Ne.symm h

theorem setFilter_live_first : ∃ d, (twoViewer.setFilter reversed ["y".toList] [] []).msgFilters =
    twoViewer.msgFilters ++ [d] ∧
      d.msgs = MsgViewer.live twoMsgs id (hostSel []) twoViewer.msgPool :=
  (MsgViewer.setFilter_live_iff twoViewer_run (hostSel_offered (by decide) List.nodup_nil)
    (twoViewer_expression (by decide))).2
    (.inl ⟨fun f hf => by
      cases f with
      | host => exact ⟨"y".toList, List.mem_singleton_self _, by decide⟩
      | app => exact absurd rfl hf
      | cat => exact absurd rfl hf, fun h => absurd h (by decide)⟩) reversed reversed_injOn

theorem reversed_filterMsgs :
    twoViewer.filterMsgs reversed ["y".toList] ["a".toList] [] = [] := by
  have happ : MsgViewer.mergeKeys reversed twoViewer.appMsgs ["a".toList] = [false, true] := by
    have hfind : twoViewer.appMsgs.find? "a".toList = some [false, true] := by decide
    rw [MsgViewer.mergeKeys, List.foldl_cons, hfind]
    simp [MsgViewer.merge]
  have hhost : MsgViewer.mergeKeys reversed twoViewer.hostMsgs ["y".toList] = [true] := by
    have hfind : twoViewer.hostMsgs.find? "y".toList = some [true] := by decide
    rw [MsgViewer.mergeKeys, List.foldl_cons, hfind]
    simp [MsgViewer.merge]
  rw [MsgViewer.filterMsgs, happ, hhost]
  simp [MsgViewer.listIntersect, reversed]

/-- The tab of the application `a` and the host `y` does not get the message of both. -/
theorem setFilter_misses :
    Machine.Run (MsgViewer.step twoMsgs id) MsgViewer.Fresh (MsgViewer.parseConf {}) twoViewer ∧
    MsgViewer.Offered (hostSel ["a".toList]) twoViewer ∧
    Set.InjOn reversed {m | m ∈ twoViewer.msgPool} ∧
    ∃ d, (twoViewer.setFilter reversed ["y".toList] ["a".toList] []).msgFilters =
        twoViewer.msgFilters ++ [d] ∧
      d.msgs = [] ∧ MsgViewer.live twoMsgs id (hostSel ["a".toList]) twoViewer.msgPool = [true] :=
  ⟨twoViewer_run, hostSel_offered (by decide) (List.nodup_singleton _), reversed_injOn, _, rfl,
    reversed_filterMsgs, by decide⟩

end MfExtensions
