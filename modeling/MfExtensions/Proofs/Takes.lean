import MfExtensions.Proofs.FeedThrows
import MfExtensions.Proofs.TwinEngine
import MfExtensions.Watch

/-!
# What a message is to a condition

Whatever a condition has matched before, a message that it does not throw on is captured if and only
if the condition is about it, with the target and the groups that the message alone gives
(`matchMsg_takes`).
-/

namespace MfExtensions

open Exec

namespace Condition

variable {L : LexicalCast} {k : CondConfig} {msg : Msg} {c c' : Condition} {b : Bool}

theorem matchAny_ok {any : Bool} {es : List Regex} {buffer : Buffer} {s : String}
    (h : matchAny any es buffer s c = .ok b c') :
    b = (any || ((es.findSome? fun e => e.regexMatch s).map (Smatch.mk buffer)).isSome) ∧
      c'.tgt = c.tgt ∧ (b = true → c'.what = if any then c.what
        else ((es.findSome? fun e => e.regexMatch s).map (Smatch.mk buffer)).getD {}) := by
  unfold matchAny at h
  cases any with
  | true =>
    cases h
    simp
  | false =>
    cases hw : es.findSome? fun e => e.regexMatch s with
    | none =>
      rw [hw] at h
      cases h
      simp
    | some w =>
      rw [hw] at h
      cases h
      simp

theorem matchBody_ok {bdy : String} (h : matchBody k bdy c = .ok b c') :
    b = (k.matchAny || ((k.e.regexSearch bdy).map (Smatch.mk .bdy)).isSome) ∧ (b = true →
      c'.what = (if k.matchAny then c.what
        else ((k.e.regexSearch bdy).map (Smatch.mk .bdy)).getD {}) ∧
      c'.tgt = if k.matchAny || !k.perTarget then c.tgt
        else slice bdy (((k.e.regexSearch bdy).map (Smatch.mk .bdy)).getD {} |>.subs.getD
          k.targetGroup (0, 0))) := by
  unfold matchBody at h
  cases hany : k.matchAny with
  | true =>
    rw [hany] at h
    cases h
    simp
  | false =>
    cases hw : k.e.regexSearch bdy with
    | none =>
      rw [hany, hw] at h
      cases h
      simp
    | some w =>
      rw [hany, hw] at h
      cases hper : k.perTarget with
      | false =>
        rw [hper] at h
        cases h
        simp
      | true =>
        rw [hper] at h
        by_cases hgroup : k.targetGroup > w.length
        · simp [hgroup, bind_apply] at h
        · simp only [Bool.false_eq_true, if_false, if_true, hgroup, bind_apply, modify_apply,
            Smatch.sub] at h
          split_ifs at h
          · cases h
          · cases h
            simp [Texts.read]

theorem lastMatch_eq {w : Smatch}
    (hw : k.anySrc = true → k.anyCat = true → k.matchAny = true → w = {}) :
    (if k.matchAny then
      if k.anyCat then if k.anySrc then w else (k.srcMatch msg).getD {}
      else (k.catMatch msg).getD {}
    else (k.bodyMatch msg).getD {}) = k.lastMatch msg := by
  unfold CondConfig.lastMatch
  cases hany : k.matchAny with
  | false => rfl
  | true =>
    cases hcat : k.anyCat with
    | false => rfl
    | true =>
      cases hsrc : k.anySrc with
      | false => rfl
      | true => exact hw hsrc hcat hany

theorem takes_iff_test (hsev : k.severity.toNat ≤ msg.sev.toNat)
    (hsrc : (k.anySrc || (k.srcMatch msg).isSome) = true)
    (hcat : (k.anyCat || (k.catMatch msg).isSome) = true)
    (hbody : (k.matchAny || (k.bodyMatch msg).isSome) = true)
    (htexts : c.texts = msg.texts) (hlast : c.lastWhat = k.lastMatch msg)
    (h : matchTest L k c = .ok b c') : b = k.takes msg L := by
  have htest : TestPrimary.evaluate L { texts := msg.texts, lastWhat := k.lastMatch msg }
      (.expr k.testExpr) = .ok b := by
    have hcongr : TestPrimary.evaluate L c (.expr k.testExpr) =
        TestPrimary.evaluate L { texts := c.texts, lastWhat := c.lastWhat } (.expr k.testExpr) :=
      test_congr L (by rfl) _
    rw [← hlast, ← htexts, ← hcongr]
    simp only [matchTest, bind_apply, get_apply] at h
    cases hr : TestPrimary.evaluate L c (.expr k.testExpr) with
    | error err => simp [hr] at h
    | ok b' =>
      rw [hr, orThrow_ok] at h
      cases h
      rfl
  unfold CondConfig.takes
  rw [htest]
  cases b <;> simp [hsev, hsrc, hcat, hbody, Except.toOption]

/-- A message that the condition does not throw on is captured if and only if the condition is about
it. -/
theorem passes_takes (htexts : c.texts = msg.texts)
    (htgt : k.matchAny = true ∨ k.perTarget = false → c.tgt = "")
    (hwhat : k.anySrc = true → k.anyCat = true → k.matchAny = true → c.what = {})
    (h : passes L k msg c = .ok b c') : b = k.takes msg L ∧
      (b = true → c'.tgt = k.target msg ∧ c'.what = k.lastMatch msg) := by
  have htexts' : c'.texts = c.texts := (texts_passes L k msg).of_ok h
  unfold passes at h
  split_ifs at h with hsev
  · cases h
    simp [CondConfig.takes, Nat.not_le.2 hsev]
  rw [Nat.not_lt] at hsev
  obtain ⟨b₁, c₁, h₁, h⟩ := bind_ok.1 h
  obtain ⟨hb₁, htgt₁, hwhat₁⟩ := matchAny_ok h₁
  have hsrc : (k.anySrc || (k.srcMatch msg).isSome) = b₁ := hb₁.symm
  cases b₁ with
  | false =>
    cases h
    simp [CondConfig.takes, hsrc]
  | true =>
    obtain ⟨b₂, c₂, h₂, h⟩ := bind_ok.1 h
    obtain ⟨hb₂, htgt₂, hwhat₂⟩ := matchAny_ok h₂
    have hcat : (k.anyCat || (k.catMatch msg).isSome) = b₂ := hb₂.symm
    cases b₂ with
    | false =>
      cases h
      simp [CondConfig.takes, hcat]
    | true =>
      obtain ⟨b₃, c₃, h₃, h⟩ := bind_ok.1 h
      obtain ⟨hb₃, hlast₃⟩ := matchBody_ok h₃
      have hbody : (k.matchAny || (k.bodyMatch msg).isSome) = b₃ := hb₃.symm
      cases b₃ with
      | false =>
        cases h
        simp [CondConfig.takes, hbody]
      | true =>
        obtain ⟨⟨⟩, c₄, hfields, h⟩ := bind_ok.1 h
        cases hfields
        obtain ⟨hwhat₃, htgt₃⟩ := hlast₃ rfl
        have hlast : c₃.what = k.lastMatch msg := by
          rw [hwhat₃, hwhat₂ rfl, hwhat₁ rfl]
          exact lastMatch_eq hwhat
        have hstate := matchTest_state L k h
        subst hstate
        refine ⟨takes_iff_test hsev hsrc hcat hbody (htexts' ▸ htexts) hlast h, fun _ => ?_⟩
        refine ⟨?_, hlast⟩
        show c₃.tgt = _
        rw [htgt₃, CondConfig.target, htgt₂, htgt₁, ← hlast, hwhat₃]
        by_cases hk : (k.matchAny || !k.perTarget) = true
        · rw [if_pos hk, if_pos hk]
          exact htgt (by simpa using hk)
        · rw [if_neg hk, if_neg hk, if_neg fun hany => hk (by rw [hany, Bool.true_or])]

/-- A captured message is the last one of the condition, with the groups and the strings that it
gives. -/
theorem matchMsg_last {p : Change × Option Hitmap.CellEvent} (hs : c.Sound k)
    (h : matchMsg L k msg c = .ok (some p) c') :
    c'.lastSrc = msg.app ∧ c'.lastWhat = k.lastMatch msg ∧ c'.texts = msg.texts := by
  have htexts : c'.texts = msg.texts := final_ok h ▸ matchMsg_texts L k msg c
  simp only [matchMsg_eq, bind_apply (x := extractFields msg), extractFields_apply] at h
  obtain ⟨b, c₁, hpass, h⟩ := bind_ok.1 h
  cases b with
  | false => cases h
  | true =>
    have hfed : (c.fed msg).texts = msg.texts := rfl
    obtain ⟨hsrc, -, hwhat⟩ := passes_fields L k msg hpass
    obtain ⟨-, hlast⟩ := (passes_takes hfed hs.tgt hs.what hpass).2 rfl
    simp only [if_true, bind_apply, capture_apply] at h
    rcases hcap : c₁.hitmap.capture k msg msg.app c₁.tgt c₁.what with _ | ⟨hitmap, change, te⟩ <;>
      rw [hcap] at h
    · cases h
    · cases h
      exact ⟨hsrc, hwhat.trans hlast, htexts⟩

/-- Whatever the condition has matched before, a message is captured if and only if the condition is
about it, with the target and the groups that the message gives. -/
theorem matchMsg_takes {x : Option (Change × Option Hitmap.CellEvent)} (hs : c.Sound k)
    (h : matchMsg L k msg c = .ok x c') :
    (x = none ∧ k.takes msg L = false ∧ c'.hitmap = c.hitmap) ∨
    ∃ change te, x = some (change, te) ∧ k.takes msg L = true ∧
      c.hitmap.capture k msg msg.app (k.target msg) (k.lastMatch msg) =
        some (c'.hitmap, change, te) := by
  simp only [matchMsg_eq, bind_apply (x := extractFields msg), extractFields_apply] at h
  obtain ⟨b, c₁, hpass, h⟩ := bind_ok.1 h
  have htexts : (c.fed msg).texts = msg.texts := rfl
  obtain ⟨htakes, hfields⟩ := passes_takes htexts hs.tgt hs.what hpass
  have hkept := (kept_passes L k msg).of_ok hpass
  change Kept c c₁ at hkept
  cases b with
  | false =>
    cases h
    exact .inl ⟨rfl, htakes.symm, hkept.1⟩
  | true =>
    obtain ⟨htgt, hlast⟩ := hfields rfl
    simp only [if_true, bind_apply, capture_apply, hkept.1, htgt, hlast] at h
    rcases hcap : c.hitmap.capture k msg msg.app (k.target msg) (k.lastMatch msg) with
      _ | ⟨hitmap, change, te⟩ <;> rw [hcap] at h
    · cases h
    · cases h
      exact .inr ⟨change, te, rfl, htakes.symm, rfl⟩

end Condition

end MfExtensions
