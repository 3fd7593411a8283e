import Mathlib.Data.Finset.Max
import Mathlib.Data.List.Dedup
import Mathlib.Data.List.Induction
import MfExtensions.Lib.Exec
import MfExtensions.Participants

/-!
# Counting participants

Three sets are kept side by side, and they hold what the calls since a reset have put in them,
under the names the group calls generate (`Knows`). Those are not the names `group-0`, `group-1`
and so on that are meant but for the empty group (`memberName_eq_iff`), so the counts are right
just if every group that is filled when it is added has the empty name (`counted_iff`).
-/

namespace MfExtensions

/-- The size of a set is the number of distinct names in a list of its elements. -/
theorem StringSet.size_eq {s : StringSet} {l : List String} (h : ∀ name, name ∈ s.keys ↔ name ∈ l) :
    s.size = l.dedup.length := by
  have hperm : s.keys.Perm l.dedup :=
    (List.perm_ext_iff_of_nodup s.keys_nodup l.nodup_dedup).2 fun name => by
      rw [h, List.mem_dedup]
  rw [← hperm.length_eq, OrdMap.keys, List.length_map, OrdMap.size]

/-! ## What the calls put in the sets -/

namespace ParticipantsOp

/-- The names a call puts in a group, `name` being the one of the `i`th member generated. -/
def members (name : String → ℕ → String) (group : String) : ParticipantsOp → List String
  | .addGroupOfSize g size => if g = group then (List.range size).map (name g) else []
  | .addParticipant g app => if g = group then [app] else []
  | _ => []

/-- All names a call puts in. -/
def names (name : String → ℕ → String) : ParticipantsOp → List String
  | .addGroupOfSize g size => (List.range size).map (name g)
  | .addParticipant _ app => [app]
  | .addUngrouped app => [app]
  | _ => []

/-- The call adds the group. -/
def Adds (group : String) : ParticipantsOp → Prop
  | .addGroup g => g = group
  | .addGroupOfSize g _ => g = group
  | _ => False

end ParticipantsOp

open ParticipantsOp

/-- The sets hold what the calls have put in them, under the names `name` generates. -/
structure Knows (name : String → ℕ → String) (ops : List ParticipantsOp) (p : Participants) :
    Prop where
  known : ∀ g, (p.groups.find? g).isSome = true ↔ ∃ op ∈ ops, op.Adds g
  unknown : ∀ g, p.groups.find? g = none → ops.flatMap (members name g) = []
  group : ∀ g apps, p.groups.find? g = some apps →
    ∀ app, app ∈ apps.keys ↔ app ∈ ops.flatMap (members name g)
  all : ∀ app, app ∈ p.allApps.keys ↔ app ∈ ops.flatMap (names name)

theorem knows_init (name : String → ℕ → String) : Knows name [] {} := by
  constructor <;> simp [OrdMap.keys]

theorem mem_keys_foldl {l : List String} : ∀ {s : StringSet} {app : String},
    app ∈ (l.foldl (fun s name => s.insert name ()) s).keys ↔ app ∈ s.keys ∨ app ∈ l := by
  induction l with
  | nil => simp
  | cons name l ih =>
    intro s app
    rw [List.foldl_cons, ih, OrdMap.mem_keys_insert, List.mem_cons]
    tauto

theorem newGroup_ok {p : Participants} {g : String} :
    p.newGroup g = .ok () ↔ p.groups.find? g = none := by
  unfold Participants.newGroup
  cases h : p.groups.find? g <;> simp

variable {ops : List ParticipantsOp} {op : ParticipantsOp} {p p' : Participants}

theorem flatMap_concat {β : Type} (f : ParticipantsOp → List β) :
    (ops ++ [op]).flatMap f = ops.flatMap f ++ f op := by
  rw [List.flatMap_append, List.flatMap_singleton]

theorem exists_adds_concat {g : String} :
    (∃ x ∈ ops ++ [op], x.Adds g) ↔ (∃ x ∈ ops, x.Adds g) ∨ op.Adds g := by
  simp [or_and_right, exists_or]

/-- A group that is added is new, and holds the names generated. -/
theorem Knows.addGroupOfSize {g : String} {size : ℕ} (h : Knows Participants.memberName ops p)
    (hop : p.addGroupOfSize g size = .ok p') :
    Knows Participants.memberName (ops ++ [.addGroupOfSize g size]) p' := by
  obtain ⟨⟨⟩, hnew, hp⟩ := Exec.except_bind_ok.1 hop
  rw [newGroup_ok] at hnew
  obtain rfl := Except.ok.inj hp
  constructor
  · intro g'
    rw [OrdMap.find?_insert, exists_adds_concat, ← h.known]
    by_cases hg : g' = g
    · simp [hg, Adds]
    · simp [hg, Adds, Ne.symm hg]
  · intro g' hnone
    rw [OrdMap.find?_insert] at hnone
    split_ifs at hnone with hg
    rw [flatMap_concat, h.unknown g' hnone, members, if_neg (Ne.symm hg), List.append_nil]
  · intro g' apps happs app
    rw [OrdMap.find?_insert] at happs
    rw [flatMap_concat, members]
    split_ifs at happs with hg
    · rw [hnew, Option.getD_none, Option.some_inj] at happs
      rw [← happs, mem_keys_foldl, h.unknown g' (hg ▸ hnew), if_pos hg.symm]
      simp [OrdMap.keys]
    · rw [if_neg (Ne.symm hg), List.append_nil, h.group g' apps happs]
  · intro app
    rw [mem_keys_foldl, h.all, flatMap_concat, List.mem_append, names]

/-- A group without members is added as one of size 0. -/
theorem Knows.addGroup {g : String} (h : Knows Participants.memberName ops p)
    (hop : p.addGroup g = .ok p') : Knows Participants.memberName (ops ++ [.addGroup g]) p' := by
  have hop : p.addGroupOfSize g 0 = .ok p' := hop
  obtain ⟨hknown, hunknown, hgroup, hall⟩ := h.addGroupOfSize hop
  simp only [exists_adds_concat, flatMap_concat] at hknown hunknown hgroup hall
  refine ⟨fun g' => ?_, fun g' hnone => ?_, fun g' apps happs app => ?_, fun app => ?_⟩
  · rw [hknown, exists_adds_concat]
    rfl
  · simpa [flatMap_concat, members] using hunknown g' hnone
  · rw [hgroup g' apps happs, flatMap_concat]
    simp [members]
  · rw [hall, flatMap_concat]
    simp [names]

theorem Knows.addParticipant {g app : String} (h : Knows Participants.memberName ops p)
    (hop : p.addParticipant g app = .ok p') :
    Knows Participants.memberName (ops ++ [.addParticipant g app]) p' := by
  rw [Participants.addParticipant] at hop
  rcases hg : p.groups.find? g with _ | apps
  · simp [hg] at hop
  · simp only [hg, Except.ok.injEq] at hop
    subst hop
    constructor
    · intro g'
      rw [OrdMap.find?_modify, exists_adds_concat, ← h.known, hg]
      by_cases hg' : g' = g
      · simp [hg', hg]
      · simp [hg', Adds]
    · intro g' hnone
      rw [OrdMap.find?_modify] at hnone
      split_ifs at hnone with hg'
      · simp [hg] at hnone
      · rw [flatMap_concat, h.unknown g' hnone, members, if_neg (Ne.symm hg'), List.append_nil]
    · intro g' apps' happs name
      rw [OrdMap.find?_modify] at happs
      rw [flatMap_concat, members, List.mem_append]
      split_ifs at happs with hg'
      · subst hg'
        rw [hg, Option.map_some, Option.some_inj] at happs
        rw [← happs, OrdMap.mem_keys_insert, h.group g' apps hg, if_pos rfl, List.mem_singleton,
          or_comm]
      · rw [if_neg (Ne.symm hg'), h.group g' apps' happs]
        simp
    · intro name
      rw [OrdMap.mem_keys_insert, h.all, flatMap_concat, List.mem_append, names,
        List.mem_singleton, or_comm]

theorem Knows.addUngrouped {app : String} (h : Knows Participants.memberName ops p)
    (hop : p.addUngrouped app = .ok p') :
    Knows Participants.memberName (ops ++ [.addUngrouped app]) p' := by
  obtain rfl := Except.ok.inj hop
  refine ⟨fun g => ?_, fun g hnone => ?_, fun g apps happs name => ?_, fun name => ?_⟩
  · rw [exists_adds_concat, ← h.known]
    simp [Adds]
  · simpa [flatMap_concat, members] using h.unknown g hnone
  · rw [flatMap_concat, h.group g apps happs]
    simp [members]
  · rw [OrdMap.mem_keys_insert, h.all, flatMap_concat, List.mem_append, names, List.mem_singleton,
      or_comm]

/-- What a call that returns does. -/
theorem Knows.exec (h : Knows Participants.memberName ops p) (hreset : op ≠ .reset)
    (hop : op.exec p = .ok p') : Knows Participants.memberName (ops ++ [op]) p' := by
  cases op with
  | addGroup g => exact h.addGroup hop
  | addGroupOfSize g size => exact h.addGroupOfSize hop
  | addParticipant g app => exact h.addParticipant hop
  | addUngrouped app => exact h.addUngrouped hop
  | reset => exact absurd rfl hreset

theorem execAll_concat :
    execAll (ops ++ [op]) p = (execAll ops p).bind op.exec := by
  simp [execAll, List.foldlM_append]
  rfl

theorem knows (hreset : ∀ op ∈ ops, op ≠ .reset) (h : execAll ops {} = .ok p) :
    Knows Participants.memberName ops p := by
  induction ops using List.reverseRecOn generalizing p with
  | nil =>
    obtain rfl := Except.ok.inj h
    exact knows_init _
  | append_singleton ops op ih =>
    rw [execAll_concat] at h
    obtain ⟨p₁, h₁, hop⟩ := Exec.except_bind_ok.1 h
    exact (ih (fun op hop => hreset op (List.mem_append_left _ hop)) h₁).exec
      (hreset op (by simp)) hop

/-! ## What is meant -/

/-- The name of the `i`th member of a group. -/
def meantName (group : String) (i : ℕ) : String := group ++ "-" ++ toString i

/-- What the counts are to be after calls. -/
structure Counted (ops : List ParticipantsOp) (p : Participants) : Prop where
  known : ∀ g, (p.groups.find? g).isSome = true ↔ ∃ op ∈ ops, op.Adds g
  group : ∀ g apps, p.groups.find? g = some apps →
    ∀ app, app ∈ apps.keys ↔ app ∈ ops.flatMap (members meantName g)
  groupCount : ∀ g, (p.groups.find? g).isSome = true →
    p.groupCount g = .ok (ops.flatMap (members meantName g)).dedup.length
  fresh : ∀ pre g size, ops = pre ++ [.addGroupOfSize g size] → p.groupCount g = .ok size
  count : p.participantCount = (ops.flatMap (names meantName)).dedup.length

/-- A group that is filled when it is added has the empty name. -/
def ParticipantsOp.WellNamed : ParticipantsOp → Prop
  | .addGroupOfSize g size => size = 0 ∨ g = ""
  | _ => True

theorem meantName_inj {g : String} {i j : ℕ} (h : meantName g i = meantName g j) : i = j := by
  rw [meantName, meantName, String.append_right_inj] at h
  have hdigits : Nat.toDigits 10 i = Nat.toDigits 10 j := by
    rw [← Nat.toList_repr, ← Nat.toList_repr]
    exact congrArg String.toList h
  have hnum := congrArg (fun ds => Nat.ofDigitChars 10 ds 0) hdigits
  simpa only [Nat.ofDigitChars_ten_toDigits] using hnum

theorem length_meantName (g : String) (i : ℕ) :
    (meantName g i).length = g.length + (("-" ++ toString i).length) := by
  rw [meantName, String.append_assoc, String.length_append]

theorem length_memberName (g : String) (i : ℕ) :
    (Participants.memberName g i).length = max g.length ("-" ++ toString i).length := by
  rw [Participants.memberName, String.length_ofList, List.length_append, List.length_drop,
    String.length_toList, String.length_toList]
  omega

theorem memberName_empty (i : ℕ) : Participants.memberName "" i = meantName "" i := by
  have hdrop : "".toList.drop ("-" ++ toString i).length = [] := List.drop_nil
  rw [Participants.memberName, meantName, hdrop, List.append_nil, String.ofList_toList,
    String.empty_append]

/-- The longest of the names that are meant is not among those generated. -/
theorem exists_not_generated {g : String} {size : ℕ} (hg : g ≠ "") (hsize : size ≠ 0) :
    ∃ i < size, ∀ j < size, meantName g i ≠ Participants.memberName g j := by
  obtain ⟨i, hi, hmax⟩ := Finset.exists_max_image (Finset.range size)
    (fun i => ("-" ++ toString i).length) ⟨0, by simp; omega⟩
  rw [Finset.mem_range] at hi
  refine ⟨i, hi, fun j hj heq => ?_⟩
  have hlen := congrArg String.length heq
  have hle := hmax j (Finset.mem_range.2 hj)
  have hpos : 0 < g.length := Nat.pos_of_ne_zero fun h => hg (by simpa using h)
  have hdash : 0 < ("-" ++ toString i).length := by
    rw [String.length_append]
    exact Nat.add_pos_left (by decide) _
  rw [length_meantName, length_memberName] at hlen
  omega

/-! ## Runs -/

/-- The names generated are the ones meant. -/
theorem Knows.meant (h : Knows Participants.memberName ops p) (hnamed : ∀ op ∈ ops, op.WellNamed) :
    Knows meantName ops p := by
  have hgen : ∀ op ∈ ops, ∀ g size, op = .addGroupOfSize g size →
      (List.range size).map (Participants.memberName g) = (List.range size).map (meantName g) := by
    rintro op hop g size rfl
    rcases hnamed _ hop with rfl | rfl
    · rw [List.range_zero, List.map_nil, List.map_nil]
    · exact List.map_congr_left fun i _ => memberName_empty i
  have hmembers : ∀ g, ops.flatMap (members Participants.memberName g) =
      ops.flatMap (members meantName g) := by
    intro g
    refine List.flatMap_congr fun op hop => ?_
    cases op with
    | addGroupOfSize g' size => simp only [members, hgen _ hop _ _ rfl]
    | _ => simp only [members]
  have hnames : ops.flatMap (names Participants.memberName) = ops.flatMap (names meantName) := by
    refine List.flatMap_congr fun op hop => ?_
    cases op with
    | addGroupOfSize g size => exact hgen _ hop _ _ rfl
    | _ => simp only [names]
  obtain ⟨hknown, hunknown, hgroup, hall⟩ := h
  simp only [hmembers, hnames] at hunknown hgroup hall
  exact ⟨hknown, hunknown, hgroup, hall⟩

theorem groupCount_eq {g : String} {l : List String} {name : String → ℕ → String}
    (h : Knows name ops p) (hl : ops.flatMap (members name g) = l)
    (hg : (p.groups.find? g).isSome = true) : p.groupCount g = .ok l.dedup.length := by
  obtain ⟨apps, happs⟩ := Option.isSome_iff_exists.1 hg
  rw [Participants.groupCount, happs, ← hl]
  exact congrArg Except.ok (StringSet.size_eq (h.group g apps happs))

/-- Before a group is added nothing is in it. -/
theorem members_fresh {name : String → ℕ → String} {g : String} {size : ℕ}
    (h : Knows name ops p) (hop : p.addGroupOfSize g size = .ok p') :
    (ops ++ [ParticipantsOp.addGroupOfSize g size]).flatMap (members name g) =
      (List.range size).map (name g) := by
  obtain ⟨⟨⟩, hnew, -⟩ := Exec.except_bind_ok.1 hop
  rw [flatMap_concat, h.unknown g (newGroup_ok.1 hnew), members, if_pos rfl, List.nil_append]

theorem counted (hreset : ∀ op ∈ ops, op ≠ .reset) (h : execAll ops {} = .ok p)
    (hnamed : ∀ op ∈ ops, op.WellNamed) : Counted ops p := by
  have hmeant := (knows hreset h).meant hnamed
  refine ⟨hmeant.known, hmeant.group, fun g hg => groupCount_eq hmeant rfl hg, ?_,
    StringSet.size_eq hmeant.all⟩
  rintro pre g size rfl
  rw [execAll_concat] at h
  obtain ⟨p₁, h₁, hop⟩ := Exec.except_bind_ok.1 h
  have hpre := (knows (fun op hop => hreset op (List.mem_append_left _ hop)) h₁).meant
    fun op hop => hnamed op (List.mem_append_left _ hop)
  have hcount := groupCount_eq hmeant (members_fresh hpre hop)
    ((hmeant.known g).2 ⟨_, List.mem_append_right _ (List.mem_singleton_self _), rfl⟩)
  rw [hcount, List.dedup_eq_self.2, List.length_map, List.length_range]
  exact List.nodup_range.map fun i j => meantName_inj

/-- Right after a group with a name is filled its members are others than the ones meant. -/
theorem not_counted {g : String} {size : ℕ}
    (hreset : ∀ op ∈ ops ++ [ParticipantsOp.addGroupOfSize g size], op ≠ .reset)
    (h : execAll (ops ++ [.addGroupOfSize g size]) {} = .ok p) (hg : g ≠ "") (hsize : size ≠ 0) :
    ¬Counted (ops ++ [.addGroupOfSize g size]) p := by
  intro hcounted
  have hknows := knows hreset h
  rw [execAll_concat] at h
  obtain ⟨p₁, h₁, hop⟩ := Exec.except_bind_ok.1 h
  have hfresh := members_fresh (knows (fun op hop => hreset op (List.mem_append_left _ hop)) h₁) hop
  have hlast : ParticipantsOp.addGroupOfSize g size ∈ ops ++ [.addGroupOfSize g size] :=
    List.mem_append_right _ (List.mem_singleton_self _)
  obtain ⟨apps, happs⟩ := Option.isSome_iff_exists.1 ((hknows.known g).2 ⟨_, hlast, rfl⟩)
  obtain ⟨i, hi, hother⟩ := exists_not_generated hg hsize
  have hmeant : meantName g i ∈ apps.keys := by
    rw [hcounted.group g apps happs, List.mem_flatMap]
    refine ⟨_, hlast, ?_⟩
    rw [members, if_pos rfl]
    exact List.mem_map_of_mem (List.mem_range.2 hi)
  rw [hknows.group g apps happs, hfresh, List.mem_map] at hmeant
  obtain ⟨j, hj, heq⟩ := hmeant
  exact hother j (List.mem_range.1 hj) heq.symm

theorem exists_execAll {pre : List ParticipantsOp} (h : execAll ops {} = .ok p)
    (hpre : pre <+: ops) : ∃ q, execAll pre {} = .ok q := by
  obtain ⟨post, rfl⟩ := hpre
  rw [execAll, List.foldlM_append] at h
  obtain ⟨q, hq, -⟩ := Exec.except_bind_ok.1 h
  exact ⟨q, hq⟩

/-- In every state after calls that return the counts are right just if no group is filled that has
a name. -/
theorem counted_iff (hreset : ∀ op ∈ ops, op ≠ .reset) (h : execAll ops {} = .ok p) :
    (∀ pre, pre <+: ops → ∀ q, execAll pre {} = .ok q → Counted pre q) ↔
      ∀ op ∈ ops, op.WellNamed := by
  constructor
  · intro hall op hop
    cases op with
    | addGroupOfSize g size =>
      by_contra hnamed
      obtain ⟨hsize, hg⟩ := not_or.1 hnamed
      obtain ⟨pre, post, rfl⟩ := List.append_of_mem hop
      have hpre : pre ++ [ParticipantsOp.addGroupOfSize g size] <+:
          pre ++ .addGroupOfSize g size :: post := ⟨post, by simp⟩
      obtain ⟨q, hq⟩ := exists_execAll h hpre
      exact not_counted (fun op hop => hreset op (hpre.subset hop)) hq hg hsize (hall _ hpre q hq)
    | _ => trivial
  · intro hnamed pre hpre q hq
    exact counted (fun op hop => hreset op (hpre.subset hop)) hq
      fun op hop => hnamed op (hpre.subset hop)

/-! ## Groups of two -/

/-- The group of the empty name, of two members, and one more. -/
def unnamed : List ParticipantsOp := [.addGroupOfSize "" 2, .addParticipant "" "x"]

theorem counted_first : ∃ p, execAll unnamed {} = .ok p ∧ Counted unnamed p := by
  obtain ⟨p, hp⟩ : ∃ p, execAll unnamed {} = .ok p := ⟨_, rfl⟩
  exact ⟨p, hp, (counted_iff (by simp [unnamed]) hp).2 (by simp [unnamed, ParticipantsOp.WellNamed])
    _ (List.prefix_refl _) p hp⟩

/-- The group `dcm` of one member has `-0m` and not `dcm-0`. -/
theorem dcm_members : ∃ p apps, execAll [.addGroupOfSize "dcm" 1] {} = .ok p ∧
    p.groups.find? "dcm" = some apps ∧ apps.keys = ["-0m"] ∧ ¬Counted [.addGroupOfSize "dcm" 1] p :=
  ⟨_, _, rfl, rfl, by decide, fun h => by
    have := (h.group "dcm" _ rfl "dcm-0").2 (by decide)
    revert this
    decide⟩

-- Two of the names generated for the group `dcm0` are the same.
example : Participants.memberName "dcm0" 10 = Participants.memberName "dcm0" 100 := by
  decide

end MfExtensions
