import MfExtensions.MsgViewer

/-!
# The lists of the viewer

Each of the three maps holds, for every key, the messages of the pool with that key in the order of
the pool (`Indexed`), and each list of the dialog shows the keys of its map (`Consistent`). While
the pool is trimmed the new message is in the pool but not in the maps, so the loop keeps the
agreement with the pool but for its last message (`trimming_trimLoop`): that one is never trimmed,
as the loop stops before the pool is empty.
-/

namespace MfExtensions

open Machine

namespace MsgViewer

variable {M : Type}

/-! ## One map -/

/-- The lists of a map are those of the pool, none of them empty. -/
def Indexed (key : M → Str) (pool : List M) (map : MsgsMap M) : Prop :=
  ∀ k l, map.find? k = some l ↔ l ≠ [] ∧ l = pool.filter fun m => key m = k

variable {key : M → Str} {pool ms : List M} {map : MsgsMap M} {m : M}

theorem indexed_iff : Indexed key pool map ↔
    ∀ k, (map.find? k).getD [] = pool.filter (fun m => key m = k) ∧ map.find? k ≠ some [] := by
  constructor
  · intro h k
    refine ⟨?_, fun hk => ((h k []).1 hk).1 rfl⟩
    cases hk : map.find? k with
    | some l => exact ((h k l).1 hk).2
    | none =>
      by_contra hne
      rw [(h k _).2 ⟨Ne.symm hne, rfl⟩] at hk
      cases hk
  · intro h k l
    obtain ⟨hlist, hne⟩ := h k
    constructor
    · intro hk
      rw [hk] at hlist hne
      exact ⟨fun hl => hne (by rw [hl]), hlist⟩
    · rintro ⟨hl, rfl⟩
      cases hk : map.find? k with
      | some l => rw [hk] at hlist; exact congrArg some hlist
      | none => rw [hk] at hlist; exact absurd hlist.symm hl

theorem Indexed.list (h : Indexed key pool map) (k : Str) :
    (map.find? k).getD [] = pool.filter fun m => key m = k := (indexed_iff.1 h k).1

theorem Indexed.mem_keys (h : Indexed key pool map) {k : Str} :
    k ∈ map.keys ↔ pool.filter (fun m => key m = k) ≠ [] := by
  rw [OrdMap.mem_keys, Option.isSome_iff_exists]
  constructor
  · rintro ⟨l, hl⟩
    obtain ⟨hne, rfl⟩ := (h k l).1 hl
    exact hne
  · exact fun hne => ⟨_, (h k _).2 ⟨hne, rfl⟩⟩

theorem indexed_empty : Indexed key [] .empty := by
  intro k l
  simp only [OrdMap.find?_empty, List.filter_nil]
  constructor
  · rintro ⟨⟩
  · rintro ⟨hne, rfl⟩
    exact absurd rfl hne

theorem find?_alter (k : Str) (f : List M → List M) (k' : Str) :
    ((map.insert k []).modify k f).find? k' =
      if k' = k then some (f ((map.find? k).getD [])) else map.find? k' := by
  rw [OrdMap.find?_modify, OrdMap.find?_insert, OrdMap.find?_insert, if_pos rfl]
  split_ifs <;> rfl

theorem indexed_pushMsg (h : Indexed key pool map) (lw : List Str) :
    Indexed key (pool ++ [m]) (pushMsg (key m) m map lw).1 := by
  have hpush : (pushMsg (key m) m map lw).1 =
      (map.insert (key m) []).modify (key m) (· ++ [m]) := by
    unfold pushMsg
    split_ifs <;> rfl
  rw [hpush, indexed_iff]
  intro k
  rw [find?_alter, List.filter_append]
  split_ifs with hk
  · rw [Option.getD_some, h.list, hk]
    simp
  · rw [h.list, List.filter_cons_of_neg (by simpa using Ne.symm hk), List.filter_nil,
      List.append_nil]
    exact ⟨rfl, (indexed_iff.1 h k).2⟩

variable [DecidableEq M]

theorem indexed_dropMsg (h : Indexed key (m :: ms) map) :
    Indexed key ms (dropMsg (key m) m map).1 := by
  have hlist : ((map.find? (key m)).getD []).erase m = ms.filter fun x => key x = key m := by
    rw [h.list, List.filter_cons_of_pos (by simp), List.erase_cons_head]
  have hother : ∀ k, k ≠ key m → (m :: ms).filter (fun x => key x = k) =
      ms.filter fun x => key x = k :=
    fun k hk => List.filter_cons_of_neg (by simpa using Ne.symm hk)
  have herased : ∀ k, (((map.insert (key m) []).modify (key m) (·.erase m)).find? k) =
      if k = key m then some (ms.filter fun x => key x = key m) else map.find? k := by
    intro k
    rw [find?_alter, hlist]
  rw [indexed_iff]
  intro k
  unfold dropMsg
  simp only [herased, if_true, Option.getD_some]
  split_ifs with hempty
  · rw [OrdMap.find?_erase, herased]
    split_ifs with hk
    · rw [hk, List.isEmpty_iff.1 hempty]
      exact ⟨rfl, by simp⟩
    · rw [← hother k hk]
      exact indexed_iff.1 h k
  · rw [herased]
    split_ifs with hk
    · rw [hk]
      exact ⟨rfl, fun hl => hempty (List.isEmpty_iff.2 (Option.some.inj hl))⟩
    · rw [← hother k hk]
      exact indexed_iff.1 h k

omit [DecidableEq M] in
theorem Indexed.find?_isSome (h : Indexed key pool map) (hm : m ∈ pool) :
    (map.find? (key m)).isSome := by
  have hmem : m ∈ pool.filter fun x => key x = key m := List.mem_filter.2 ⟨hm, by simp⟩
  rw [(h _ _).2 ⟨List.ne_nil_of_mem hmem, rfl⟩]
  rfl

/-- A key is gone if the map says so. -/
theorem keys_dropMsg (h : Indexed key (m :: ms) map) (hgone : (dropMsg (key m) m map).2 = false) :
    (dropMsg (key m) m map).1.keys = map.keys := by
  obtain ⟨l, hl⟩ := Option.isSome_iff_exists.1 (h.find?_isSome List.mem_cons_self)
  simp only [dropMsg, OrdMap.insert_of_find? hl] at hgone ⊢
  split_ifs at hgone ⊢
  rw [OrdMap.keys_modify]

omit [DecidableEq M] in
/-- The list of a map shows its keys again once a key is added. -/
theorem lw_pushMsg {lw : List Str} (h : lw = map.keys) (k : Str) :
    (pushMsg k m map lw).2 = (pushMsg k m map lw).1.keys := by
  unfold pushMsg
  split_ifs with hk
  · rfl
  · rw [Option.isNone_iff_eq_none, ← ne_eq, Option.ne_none_iff_exists'] at hk
    obtain ⟨l, hl⟩ := hk
    rw [OrdMap.insert_of_find? hl, OrdMap.keys_modify, h]

/-! ## All three -/

end MsgViewer

/-- The field of a message. -/
def Field.of (msg : QtMfMsg) : Field → Str
  | .host => msg.host
  | .app => msg.app
  | .cat => msg.cat

namespace MsgViewer

variable {M : Type} (obj : M → QtMfMsg)

def msgs (s : MsgViewer M) : Field → MsgsMap M
  | .host => s.hostMsgs
  | .app => s.appMsgs
  | .cat => s.catMsgs

def lw (s : MsgViewer M) : Field → List Str
  | .host => s.lwHost
  | .app => s.lwApplication
  | .cat => s.lwCategory

def ListUpdate.gone (u : ListUpdate) : Field → Bool
  | .host => u.host
  | .app => u.app
  | .cat => u.cat

/-- The maps list the messages of the pool, and the dialog shows their keys. -/
structure Consistent (s : MsgViewer M) : Prop where
  indexed : ∀ f, Indexed (fun m => f.of (obj m)) s.msgPool (s.msgs f)
  shown : ∀ f, s.lw f = (s.msgs f).keys

/-- In the loop of `trim_msg_pool` the last message of the pool is in no map yet, and a list that is
not to be updated shows the keys of its map. -/
structure Trimming (ms : List M) (m : M) (s : MsgViewer M) (u : ListUpdate) : Prop where
  pool : s.msgPool = ms ++ [m]
  indexed : ∀ f, Indexed (fun m => f.of (obj m)) ms (s.msgs f)
  shown : ∀ f, u.gone f = false → s.lw f = (s.msgs f).keys

variable {obj} {ms : List M} {m m' : M} {s : MsgViewer M} {u : ListUpdate}

/-- A message put at the end of the pool of a consistent dialog. -/
theorem Consistent.trimming (h : Consistent obj s) (m : M) :
    Trimming obj s.msgPool m { s with msgPool := s.msgPool ++ [m] } {} :=
  ⟨rfl, h.indexed, fun f _ => h.shown f⟩

theorem consistent_updateIndex (h : Trimming obj ms m s {}) :
    Consistent obj (s.updateIndex obj m) where
  indexed f := by
    have hpool : (s.updateIndex obj m).msgPool = ms ++ [m] := h.pool
    rw [hpool]
    cases f with
    | host => exact indexed_pushMsg (h.indexed .host) _
    | app => exact indexed_pushMsg (h.indexed .app) _
    | cat => exact indexed_pushMsg (h.indexed .cat) _
  shown f := by
    cases f with
    | host => exact lw_pushMsg (h.shown .host rfl) _
    | app => exact lw_pushMsg (h.shown .app rfl) _
    | cat => exact lw_pushMsg (h.shown .cat rfl) _

variable [DecidableEq M]

theorem trimming_trimRound (h : Trimming obj (m' :: ms) m s u) :
    Trimming obj ms m (trimRound obj m' s u).1 (trimRound obj m' s u).2 where
  pool := by
    show s.msgPool.tail = _
    rw [h.pool]
    rfl
  indexed f := by
    cases f with
    | host => exact indexed_dropMsg (h.indexed .host)
    | app => exact indexed_dropMsg (h.indexed .app)
    | cat => exact indexed_dropMsg (h.indexed .cat)
  shown f hgone := by
    have hshown : ∀ {f : Field} {b : Bool}, (u.gone f || b) = false → s.lw f = (s.msgs f).keys :=
      fun hb => h.shown _ (Bool.or_eq_false_iff.1 hb).1
    cases f with
    | host =>
      exact (hshown (f := .host) hgone).trans
        (keys_dropMsg (h.indexed .host) (Bool.or_eq_false_iff.1 hgone).2).symm
    | app =>
      exact (hshown (f := .app) hgone).trans
        (keys_dropMsg (h.indexed .app) (Bool.or_eq_false_iff.1 hgone).2).symm
    | cat =>
      exact (hshown (f := .cat) hgone).trans
        (keys_dropMsg (h.indexed .cat) (Bool.or_eq_false_iff.1 hgone).2).symm

/-- The loop keeps the agreement and trims from the front. -/
theorem trimming_trimLoop : ∀ {ms : List M} {s : MsgViewer M} {u : ListUpdate},
    Trimming obj ms m s u → ∃ ms', ms' <:+ ms ∧
      Trimming obj ms' m (trimLoop obj (ms ++ [m]) s u).1 (trimLoop obj (ms ++ [m]) s u).2
  | [], s, u, h => by
    have hstop : trimLoop obj ([] ++ [m]) s u = (s, u) := by
      rw [List.nil_append, trimLoop, if_neg]
      simp only [List.length_singleton]
      omega
    exact ⟨[], List.suffix_rfl, by rwa [hstop]⟩
  | m' :: ms, s, u, h => by
    rw [List.cons_append, trimLoop]
    split_ifs
    · obtain ⟨ms', hsuffix, h'⟩ := trimming_trimLoop (trimming_trimRound h)
      exact ⟨ms', hsuffix.trans (List.suffix_cons m' ms), h'⟩
    · exact ⟨m' :: ms, List.suffix_rfl, h⟩

theorem trimming_trimMsgPool (h : Trimming obj ms m s {}) :
    ∃ ms', ms' <:+ ms ∧ Trimming obj ms' m (s.trimMsgPool obj) {} := by
  obtain ⟨ms', hsuffix, h'⟩ := trimming_trimLoop h
  rw [← h.pool] at h'
  refine ⟨ms', hsuffix, h'.pool, fun f => ?_, fun f _ => ?_⟩
  · cases f with
    | host => exact h'.indexed .host
    | app => exact h'.indexed .app
    | cat => exact h'.indexed .cat
  · have hlw : (s.trimMsgPool obj).lw f = if (trimLoop obj s.msgPool s {}).2.gone f then
        ((s.trimMsgPool obj).msgs f).keys else (trimLoop obj s.msgPool s {}).1.lw f := by
      cases f <;> rfl
    have hmsgs : (s.trimMsgPool obj).msgs f = (trimLoop obj s.msgPool s {}).1.msgs f := by
      cases f <;> rfl
    rw [hlw]
    split_ifs with hgone
    · rfl
    · rw [h'.shown f (Bool.not_eq_true _ ▸ hgone), hmsgs]

/-- The messages, the lists and the tabs are the same. -/
structure Same (s s' : MsgViewer M) : Prop where
  maxMsgs : s'.maxMsgs = s.maxMsgs
  msgPool : s'.msgPool = s.msgPool
  msgs : s'.msgs = s.msgs
  lw : s'.lw = s.lw
  msgFilters : s'.msgFilters = s.msgFilters

omit [DecidableEq M] in
theorem msgThrottled_same (msg : QtMfMsg) (s : MsgViewer M) : Same s (s.msgThrottled msg).2 := by
  unfold msgThrottled
  dsimp only
  split_ifs <;> exact ⟨rfl, rfl, rfl, rfl, rfl⟩

omit [DecidableEq M] in
theorem Same.consistent {s' : MsgViewer M} (hs : Same s s') (h : Consistent obj s) :
    Consistent obj s' where
  indexed f := by
    rw [hs.msgPool, hs.msgs]
    exact h.indexed f
  shown f := by
    rw [hs.lw, hs.msgs]
    exact h.shown f

variable (fold : Char → Char)

variable (obj) in
/-- A message that is not throttled is put at the end of the pool. -/
theorem onNewMsg_cases (m : M) (s : MsgViewer M) : ∃ s₁, Same s s₁ ∧
    (s.onNewMsg obj fold m = s₁ ∨
      ∃ s₂, s₂ = ({ s₁ with msgPool := s₁.msgPool ++ [m] } : MsgViewer M).trimMsgPool obj ∧
        s.onNewMsg obj fold m =
          { s₂.updateIndex obj m with
            msgFilters := s₂.msgFilters.map fun d =>
              if d.shows fold (obj m) then { d with msgs := d.msgs ++ [m] } else d }) := by
  have hsame := msgThrottled_same (obj m) { s with nMsgs := s.nMsgs + 1 }
  refine ⟨_, ⟨hsame.maxMsgs, hsame.msgPool, hsame.msgs, hsame.lw, hsame.msgFilters⟩, ?_⟩
  unfold onNewMsg
  dsimp only
  split_ifs
  · exact .inl rfl
  · exact .inr ⟨_, rfl, rfl⟩

theorem consistent_onNewMsg (h : Consistent obj s) (m : M) :
    Consistent obj (s.onNewMsg obj fold m) := by
  obtain ⟨s₁, hsame, hs | ⟨s₂, rfl, hs⟩⟩ := onNewMsg_cases obj fold m s
  · rw [hs]
    exact hsame.consistent h
  · have h₁ := hsame.consistent h
    obtain ⟨ms', -, h₂⟩ := trimming_trimMsgPool (h₁.trimming m)
    have h₃ := consistent_updateIndex h₂
    rw [hs]
    exact ⟨h₃.indexed, h₃.shown⟩

/-- The pool keeps its last messages, and a message that is not throttled is put at its end. -/
theorem msgPool_onNewMsg (h : Consistent obj s) (m : M) :
    (s.onNewMsg obj fold m).msgPool = s.msgPool ∨
      ∃ ms', ms' <:+ s.msgPool ∧ (s.onNewMsg obj fold m).msgPool = ms' ++ [m] := by
  obtain ⟨s₁, hsame, hs | ⟨s₂, rfl, hs⟩⟩ := onNewMsg_cases obj fold m s
  · exact .inl (by rw [hs, hsame.msgPool])
  · have h₁ := hsame.consistent h
    obtain ⟨ms', hsuffix, h₂⟩ := trimming_trimMsgPool (h₁.trimming m)
    exact .inr ⟨ms', hsame.msgPool ▸ hsuffix, by rw [hs]; exact h₂.pool⟩

omit [DecidableEq M] in
theorem consistent_clear (s : MsgViewer M) : Consistent obj s.clear where
  indexed f := by
    cases f <;> exact indexed_empty
  shown f := by
    cases f <;> rfl

theorem consistent_step {a : ViewerAct M} {s' : MsgViewer M} (h : Consistent obj s)
    (hs : step obj fold a s = some s') : Consistent obj s' := by
  cases a with
  | onNewMsg m =>
    rw [← Option.some_inj.1 hs]
    exact consistent_onNewMsg fold h m
  | clear =>
    rw [← Option.some_inj.1 hs]
    exact consistent_clear s
  | setFilter addr hostFilter appFilter catFilter =>
    rw [← Option.some_inj.1 hs]
    unfold setFilter
    dsimp only
    split_ifs <;> exact ⟨h.indexed, h.shown⟩
  | tabCloseRequested tabIndex =>
    rw [← Option.some_inj.1 hs]
    unfold tabCloseRequested
    split_ifs <;> exact ⟨h.indexed, h.shown⟩
  | setSuppression l i status =>
    rw [← Option.some_inj.1 hs]
    cases l <;> exact ⟨h.indexed, h.shown⟩
  | setThrottling l i status =>
    rw [← Option.some_inj.1 hs]
    cases l <;> exact ⟨h.indexed, h.shown⟩

omit [DecidableEq M] in
theorem consistent_parseConf (conf : ViewerConf) : Consistent obj (parseConf conf) where
  indexed f := by
    cases f <;> exact indexed_empty
  shown f := by
    cases f <;> rfl

theorem reaches_consistent {conf : ViewerConf} (h : Reaches (step obj fold) (parseConf conf) s) :
    Consistent obj s :=
  h.invariant (consistent_parseConf conf) fun _ _ _ hI _ hs => consistent_step fold hI hs

/-- Whatever happened, each map lists the messages of the pool by its field and no others. -/
theorem index_invariant {conf : ViewerConf} (h : Reaches (step obj fold) (parseConf conf) s)
    (f : Field) : Indexed (fun m => f.of (obj m)) s.msgPool (s.msgs f) ∧
      ∀ m ∉ s.msgPool, ∀ k l, (s.msgs f).find? k = some l → m ∉ l := by
  have hindexed := (reaches_consistent fold h).indexed f
  refine ⟨hindexed, fun m hm k l hl hmem => ?_⟩
  obtain ⟨-, rfl⟩ := (hindexed k l).1 hl
  exact hm (List.mem_filter.1 hmem).1

end MsgViewer

/-- Two messages of the hosts `x` and `y`. -/
def twoMsgs (b : Bool) : QtMfMsg where
  host := if b then "y".toList else "x".toList
  cat := "c".toList
  app := "a".toList
  time := 0
  application := "a".toList
  pid := []

theorem index_invariant_second : ∃ s : MsgViewer Bool,
    Reaches (MsgViewer.step twoMsgs id) (MsgViewer.parseConf { maxMessageBufferSize := 1 }) s ∧
      s.msgPool = [true] ∧ MsgViewer.Indexed (fun b => (twoMsgs b).host) s.msgPool s.hostMsgs :=
  have h := reaches_exec [.onNewMsg false, .onNewMsg true] rfl
  ⟨_, h, rfl, (MsgViewer.index_invariant id h .host).1⟩

end MfExtensions
