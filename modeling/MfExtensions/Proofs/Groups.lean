import MfExtensions.Condition
import MfExtensions.Proofs.Cell

/-!
# Groups that do not exist

Three functions check a group number before they read the group: `match_body` that of the target,
`get_msg_group` for the test functions, and `get_message_group` of a cell. Each compares it with the
size of the match, which counts the whole match too, so the number after the last group passes and
stands for an empty string (`group_guards_iff`).
-/

namespace MfExtensions

open Exec

/-- A search that succeeds finds the whole match and `n` groups. -/
def Regex.HasGroups (e : Regex) (n : ℕ) : Prop :=
  ∀ s subs, e.regexSearch s = some subs → subs.length = n + 1

/-- A group that is read after a check: what the three functions do. -/
def Smatch.checked (x : Texts) (w : Smatch) (err : Err) (g : ℕ) : Except Err String :=
  if g > w.subs.length then .error err else w.sub x g

/-- The condition, with its messages filed by a group. -/
def CondConfig.byGroup (k : CondConfig) (g : ℕ) : CondConfig :=
  { k with perTarget := true, targetGroup := g }

def noGroup : Err := .runtime "group does not exist"

def noTargetGroup : Err := .runtime "match_body: target group does not exit"

theorem Smatch.checked_error_iff {x : Texts} {w : Smatch} {err : Err} {g : ℕ} (hw : w.subs ≠ []) :
    w.checked x err g = .error err ↔ w.subs.length < g := by
  unfold checked sub
  split_ifs with hg hnil
  · exact iff_of_true rfl hg
  · exact absurd (List.isEmpty_iff.1 hnil) hw
  · exact iff_of_false (fun h => by cases h) hg

/-- With `n` groups the check is right of every number but the first that does not exist. -/
theorem Smatch.checked_iff {x : Texts} {w : Smatch} {err : Err} {n g : ℕ}
    (hw : w.subs.length = n + 1) : (w.checked x err g = .error err ↔ n < g) ↔ g ≠ n + 1 := by
  have hne : w.subs ≠ [] := List.ne_nil_of_length_eq_add_one hw
  rw [checked_error_iff hne, hw]
  omega

namespace Condition

variable {k : CondConfig} {n g : ℕ} {bdy src : String} {subs : SubMatches} {c c₁ c₂ : Condition}

/-- What `match_body` does with a match: its target is a group of it. -/
theorem matchBody_apply (hany : k.matchAny = false) (hmatch : k.e.regexSearch bdy = some subs) :
    matchBody k bdy c =
      if k.perTarget then
        match Smatch.checked { bdy } { subs } noTargetGroup k.targetGroup with
        | .ok tgt => .ok true { c with what := { subs }, tgt }
        | .error err => .error err { c with what := { subs } }
      else .ok true { c with what := { subs } } := by
  unfold matchBody
  rw [hany, hmatch]
  simp only [Bool.false_eq_true, if_false, bind_apply, modify_apply]
  cases k.perTarget with
  | false => rfl
  | true =>
    unfold Smatch.checked
    simp only [if_true]
    split_ifs with hg
    · rfl
    · cases Smatch.sub { bdy } { subs } k.targetGroup <;> rfl

/-- A body that the regular expression finds is kept as the match. -/
theorem matchBody_what (hany : k.matchAny = false) (hmatch : k.e.regexSearch bdy = some subs)
    (h : matchBody k bdy c = .ok true c₁) : c₁.what = { subs } := by
  rw [matchBody_apply hany hmatch] at h
  split_ifs at h
  · rcases hgroup : Smatch.checked { bdy } { subs } noTargetGroup k.targetGroup with err | tgt <;>
      rw [hgroup] at h <;> cases h
    rfl
  · cases h
    rfl

theorem matchBody_error_iff (hany : k.matchAny = false) (hmatch : k.e.regexSearch bdy = some subs)
    (hper : k.perTarget = true) : (∃ c', matchBody k bdy c = .error noTargetGroup c') ↔
      Smatch.checked { bdy } { subs } noTargetGroup k.targetGroup = .error noTargetGroup := by
  rw [matchBody_apply hany hmatch, if_pos hper]
  rcases Smatch.checked { bdy } { subs } noTargetGroup k.targetGroup with err | tgt
  · simp
  · simp

/-- The three checks, for a message that the regular expression finds: that of `match_body` where
messages are filed by the group `g`, that of the test functions on the fields of the message, and
that of a cell the message is put in. Each throws for exactly the groups that do not exist, unless
`g` is the first of them. -/
theorem group_guards_iff (hgroups : k.e.HasGroups n) (hany : k.matchAny = false) {msg : Msg}
    (hmatch : (k.e.regexSearch msg.text).isSome = true) (g : ℕ) :
    (∀ c, ((∃ c', matchBody (k.byGroup g) msg.text c = .error noTargetGroup c') ↔ n < g) ↔
      g ≠ n + 1) ∧
    (∀ c c₁ c₂, matchBody k msg.text c = .ok true c₁ → updateFields msg.app c₁ = .ok () c₂ →
      ((c₂.msgGroup g = .error noGroup ↔ n < g) ↔ g ≠ n + 1)) ∧
    (∀ c c₁ x y te flipped texts, matchBody k msg.text c = .ok true c₁ →
      Cell.hit k msg c₁.what x = some (y, te, flipped) →
      ((y.messageGroup texts g = .error noGroup ↔ n < g) ↔ g ≠ n + 1)) := by
  obtain ⟨subs, hw⟩ := Option.isSome_iff_exists.1 hmatch
  have hlen := hgroups msg.text subs hw
  refine ⟨fun c => ?_, fun c c₁ c₂ hbody hfields => ?_,
    fun c c₁ x y te flipped texts hbody hhit => ?_⟩
  · have herror := matchBody_error_iff (k := k.byGroup g) (c := c) hany hw rfl
    rw [herror]
    exact Smatch.checked_iff hlen
  · have hlast : c₂.lastWhat = { subs } := by
      cases hfields
      exact matchBody_what hany hw hbody
    exact Smatch.checked_iff (hlast ▸ hlen)
  · have hwhat : y.what = { subs } := (Cell.hit_what hhit).trans (matchBody_what hany hw hbody)
    exact Smatch.checked_iff (hwhat ▸ hlen)

def wholeConfig : CondConfig :=
  { name := "whole", severity := .debug, anySrc := true, e := Regex.wholeText }

theorem wholeText_groups : Regex.wholeText.HasGroups 1 := by
  rintro s w hw
  cases hw
  rfl

def bodyMsg (text : String) : Msg := { sev := .info, app := "a", cat := "b", text, time := 0 }

theorem group_guards_iff_second :
    (∀ c, ((∃ c', matchBody (wholeConfig.byGroup 3) (bodyMsg "on").text c =
      .error noTargetGroup c') ↔ 1 < 3) ↔ 3 ≠ 1 + 1) ∧
    (∀ c c₁ c₂, matchBody wholeConfig (bodyMsg "on").text c = .ok true c₁ →
      updateFields (bodyMsg "on").app c₁ = .ok () c₂ →
      ((c₂.msgGroup 3 = .error noGroup ↔ 1 < 3) ↔ 3 ≠ 1 + 1)) ∧
    (∀ c c₁ x y te flipped texts, matchBody wholeConfig (bodyMsg "on").text c = .ok true c₁ →
      Cell.hit wholeConfig (bodyMsg "on") c₁.what x = some (y, te, flipped) →
      ((y.messageGroup texts 3 = .error noGroup ↔ 1 < 3) ↔ 3 ≠ 1 + 1)) :=
  group_guards_iff wholeText_groups rfl rfl 3

/-- The group 2 of `(.*)` does not exist: both messages are filed under the empty string, and it is
what the test functions and the texts of the rules get. -/
theorem group_guards_past : Regex.wholeText.HasGroups 1 ∧
    (∃ c₁ c₂, matchBody (wholeConfig.byGroup 2) "on" {} = .ok true c₁ ∧ c₁.tgt = "" ∧
      matchBody (wholeConfig.byGroup 2) "off" c₁ = .ok true c₂ ∧ c₂.tgt = "") ∧
    (∃ c₁ c₂, matchBody wholeConfig "on" {} = .ok true c₁ ∧ updateFields "a" c₁ = .ok () c₂ ∧
      c₂.msgGroup 2 = .ok "") ∧
    ∃ c₁ y, matchBody wholeConfig "on" {} = .ok true c₁ ∧
      (∃ te flipped, Cell.hit wholeConfig (bodyMsg "on") c₁.what {} = some (y, te, flipped)) ∧
      y.messageGroup (bodyMsg "on").texts 2 = .ok "" :=
  ⟨wholeText_groups, ⟨_, _, rfl, rfl, rfl, rfl⟩, ⟨_, _, rfl, rfl, rfl⟩,
    _, _, rfl, ⟨_, _, rfl⟩, rfl⟩

end Condition

end MfExtensions
