import Mathlib.Data.Int.Init
import MfExtensions.Lib.Streak
import MfExtensions.UdpRoute

/-!
# When the UDP destination gives up

`error_count_` is the number of failures since the last five successes in a row, whatever came
before, and `consecutive_success_count_` matters only while that number is not 0 (`Counts`). So a
message is sent just if fewer than the threshold failed since then, and once one is not, none is
ever again (`attempts_iff`).
-/

namespace MfExtensions

open Machine

namespace UdpRoute

def succeeded (sts : ℤ) : Bool := 0 ≤ sts

/-- What `sendto` returned so far. -/
def outcomes (s : UdpRoute) : List ℤ := s.sent.map Prod.snd

/-- The failures since the last time five successes in a row were completed. -/
def failures (s : UdpRoute) : ℕ := Streak.badSince succeeded 5 s.outcomes

def Attempts (k : UdpRouteConfig) (c : RouteCall) (s s' : UdpRoute) : Prop :=
  s'.sent = s.sent ++ [(packet k c.text, c.sts)]

/-- The condition under which `routePayload` sends. -/
def Sends (k : UdpRouteConfig) (s : UdpRoute) : Prop := s.errorCount < k.errorMax ∨ k.errorMax = 0

variable {k : UdpRouteConfig} {c : RouteCall} {s s' s'' : UdpRoute}

/-! ## One call -/

theorem fail_fields : (s.fail k).sent = s.sent ∧ (s.fail k).errorCount = s.errorCount + 1 ∧
    (s.fail k).consecutiveSuccessCount = 0 := by
  unfold fail
  simp only []
  split_ifs <;> exact ⟨rfl, rfl, rfl⟩

theorem succeed_fields : s.succeed.sent = s.sent ∧
    s.succeed.errorCount = (if s.consecutiveSuccessCount + 1 ≥ 5 then 0 else s.errorCount) ∧
    s.succeed.consecutiveSuccessCount = s.consecutiveSuccessCount + 1 := by
  unfold succeed
  simp only []
  split_ifs <;> exact ⟨rfl, rfl, rfl⟩

/-- What a call does to the counters. -/
inductive Counted (s s' : UdpRoute) : ℤ → Prop
  | fail {sts : ℤ} (hsts : succeeded sts = false) (herr : s'.errorCount = s.errorCount + 1)
      (hrow : s'.consecutiveSuccessCount = 0) : Counted s s' sts
  | succeed {sts : ℤ} (hsts : succeeded sts = true)
      (herr : s'.errorCount = if s.consecutiveSuccessCount + 1 ≥ 5 then 0 else s.errorCount)
      (hrow : s'.consecutiveSuccessCount = s.consecutiveSuccessCount + 1) : Counted s s' sts

theorem routePayload_cases (hs : routePayload k c s = some s') :
    (¬Sends k s ∧ s'.sent = s.sent ∧ s'.errorCount = s.errorCount ∧
      s'.consecutiveSuccessCount = s.consecutiveSuccessCount) ∨
    (Sends k s ∧ Attempts k c s s' ∧ Counted s s' c.sts) := by
  unfold routePayload at hs
  obtain ⟨s₁, h₁, hs⟩ := Option.bind_eq_some_iff.1 hs
  -- only the socket changes before the message is sent
  have hsocket : ∃ fd, s₁ = { s with messageSocket := fd } := by
    unfold reconnect at h₁
    split_ifs at h₁
    · exact ⟨c.socket, (Option.some_inj.1 h₁).symm⟩
    · exact ⟨s.messageSocket, (Option.some_inj.1 h₁).symm⟩
  obtain ⟨fd, rfl⟩ := hsocket
  simp only [] at hs
  split_ifs at hs with hsends hsts
  · obtain rfl := Option.some_inj.1 hs
    obtain ⟨hsent, herr, hrow⟩ := fail_fields (k := k)
      (s := { s with messageSocket := fd, sent := s.sent ++ [(packet k c.text, c.sts)] })
    exact .inr ⟨hsends, hsent, .fail (decide_eq_false (by omega)) herr hrow⟩
  · obtain rfl := Option.some_inj.1 hs
    obtain ⟨hsent, herr, hrow⟩ := succeed_fields
      (s := { s with messageSocket := fd, sent := s.sent ++ [(packet k c.text, c.sts)] })
    exact .inr ⟨hsends, hsent, .succeed (decide_eq_true (by omega)) herr hrow⟩
  · obtain rfl := Option.some_inj.1 hs
    exact .inl ⟨hsends, rfl, rfl, rfl⟩

/-- What is given to `sendto` for a message is its packet. -/
theorem packet_eq (mf : MfLib) (e : ErrorObj) (u : UdpSender) (hpid : k.pid = u.pid) :
    u.packet mf e = (u.fillPrefix mf e).map fun r =>
      (packet k (r.1 ++ UdpSender.fillUsrMsg e), r.2) := by
  unfold UdpSender.packet UdpSender.fillPrefix packet
  rw [hpid]
  rcases UdpSender.trimFilename u.filenameDelimit e.filename with _ | file
  · rfl
  · simp

/-! ## The counters over a run -/

/-- `error_count_` counts the failures, and while there are any `consecutive_success_count_` the
successes since the last one. -/
structure Counts (s : UdpRoute) : Prop where
  errors : s.errorCount.toInt = s.failures
  row : s.failures ≠ 0 → s.consecutiveSuccessCount.toInt = Streak.streak succeeded s.outcomes

theorem counts_start : Counts {} where
  errors := rfl
  row h := absurd rfl h

theorem toInt_succ {x y : Int32} (h : x < y) : (x + 1).toInt = x.toInt + 1 := by
  have hx := x.le_toInt
  have hy := y.toInt_lt
  rw [Int32.lt_iff_toInt_lt] at h
  rw [Int32.toInt_add, Int32.toInt_one]
  exact Int.bmod_eq_of_le (by omega) (by omega)

theorem Attempts.outcomes_eq (h : Attempts k c s s') : s'.outcomes = s.outcomes ++ [c.sts] := by
  unfold Attempts at h
  unfold outcomes
  rw [h, List.map_append, List.map_singleton]

/-- While a failure counts there were fewer than five successes since. -/
theorem streak_lt (h : s.failures ≠ 0) : Streak.streak succeeded s.outcomes < 5 := by
  by_contra hge
  exact h (Streak.badSince_of_le (by omega))

theorem Counts.fail (h : Counts s) (hmax : s.errorCount < k.errorMax)
    (hout : s'.outcomes = s.outcomes ++ [c.sts]) (hsts : succeeded c.sts = false)
    (herr : s'.errorCount = s.errorCount + 1) (hrow : s'.consecutiveSuccessCount = 0) :
    Counts s' := by
  have hfailures : s'.failures = s.failures + 1 := by
    unfold failures
    rw [hout]
    exact Streak.badSince_concat_bad (by omega) hsts
  constructor
  · rw [herr, toInt_succ hmax, hfailures, h.errors]
    rfl
  · intro _
    rw [hrow, hout, Streak.streak_concat_bad hsts]
    rfl

theorem Counts.succeed (h : Counts s) (hout : s'.outcomes = s.outcomes ++ [c.sts])
    (hsts : succeeded c.sts = true)
    (herr : s'.errorCount = if s.consecutiveSuccessCount + 1 ≥ 5 then 0 else s.errorCount)
    (hrow : s'.consecutiveSuccessCount = s.consecutiveSuccessCount + 1) : Counts s' := by
  have hfailures : s'.failures =
      if 5 ≤ Streak.streak succeeded s.outcomes + 1 then 0 else s.failures := by
    unfold failures
    rw [hout]
    exact Streak.badSince_concat_good hsts
  by_cases hzero : s.failures = 0
  · -- no failure counts, and a success leaves it so
    rw [hzero, ite_self] at hfailures
    have herr0 : s.errorCount = 0 := by
      rw [← Int32.toInt_inj, h.errors, hzero]
      rfl
    rw [herr0, ite_self] at herr
    exact ⟨by rw [herr, hfailures]; rfl, fun hne => absurd hfailures hne⟩
  · have hlt := streak_lt hzero
    have hcount := h.row hzero
    have hsucc : (s.consecutiveSuccessCount + 1).toInt =
        Streak.streak succeeded s.outcomes + 1 := by
      rw [toInt_succ (y := 5), hcount]
      rw [Int32.lt_iff_toInt_lt, hcount]
      exact Int.ofNat_lt.2 hlt
    have hfive : s.consecutiveSuccessCount + 1 ≥ 5 ↔
        5 ≤ Streak.streak succeeded s.outcomes + 1 := by
      rw [ge_iff_le, Int32.le_iff_toInt_le, hsucc]
      exact Int.ofNat_le
    constructor
    · rw [herr, hfailures]
      split_ifs with h₁ h₂ h₂
      · rfl
      · exact absurd (hfive.1 h₁) h₂
      · exact absurd (hfive.2 h₂) h₁
      · exact h.errors
    · intro _
      rw [hrow, hsucc, hout, Streak.streak_concat_good hsts]
      rfl

theorem Counts.step (hmax : 0 < k.errorMax) (h : Counts s) (hs : routePayload k c s = some s') :
    Counts s' := by
  rcases routePayload_cases hs with ⟨-, hsent, herr, hrow⟩ | ⟨hsends, hsent, hc⟩
  · have hout : s'.outcomes = s.outcomes := by
      unfold outcomes
      rw [hsent]
    have hfailures : s'.failures = s.failures := by
      unfold failures
      rw [hout]
    exact ⟨by rw [herr, h.errors, hfailures], fun hne => by
      rw [hrow, hout]
      exact h.row (hfailures ▸ hne)⟩
  · have hlt : s.errorCount < k.errorMax :=
      hsends.resolve_right fun h => absurd (h ▸ hmax) (by decide)
    rcases hc with ⟨hsts, herr, hrow⟩ | ⟨hsts, herr, hrow⟩
    · exact h.fail hlt hsent.outcomes_eq hsts herr hrow
    · exact h.succeed hsent.outcomes_eq hsts herr hrow

theorem counts (hmax : 0 < k.errorMax) (h : Reaches (routePayload k) {} s) : Counts s :=
  h.invariant counts_start fun _ _ _ hs _ hstep => hs.step hmax hstep

/-! ## What is sent -/

/-- What has been given up stays given up. -/
theorem given_up (hs : ¬Sends k s) (h : Reaches (routePayload k) s s') :
    s'.sent = s.sent ∧ ¬Sends k s' := by
  refine h.invariant (I := fun s' => s'.sent = s.sent ∧ ¬Sends k s') ⟨rfl, hs⟩ ?_
  rintro c s₁ s₂ ⟨hsent, hstop⟩ - hstep
  rcases routePayload_cases hstep with ⟨-, hsent', herr, -⟩ | ⟨hsends, -⟩
  · unfold Sends at hstop ⊢
    exact ⟨hsent'.trans hsent, herr ▸ hstop⟩
  · exact absurd hsends hstop

/-- In every run, whatever `sendto` returned, a message is sent just if fewer than the threshold
failed since five in a row succeeded; and after one that is not sent nothing is. -/
theorem attempts_iff (hmax : 0 < k.errorMax) (h : Reaches (routePayload k) {} s)
    (hs : routePayload k c s = some s') :
    (Attempts k c s s' ↔ s.failures < k.errorMax.toInt) ∧
      (¬Attempts k c s s' → ∀ s'', Reaches (routePayload k) s' s'' → s''.sent = s.sent) := by
  have hsends : Sends k s ↔ s.failures < k.errorMax.toInt := by
    unfold Sends
    rw [← (counts hmax h).errors, ← Int32.lt_iff_toInt_lt]
    exact or_iff_left fun h => absurd (h ▸ hmax) (by decide)
  rcases routePayload_cases hs with ⟨hstop, hsent, herr, -⟩ | ⟨hgo, hsent, -⟩
  · have hnot : ¬Attempts k c s s' := by
      unfold Attempts
      rw [hsent]
      exact fun h => absurd (congrArg List.length h) (by simp)
    have hstop' : ¬Sends k s' := by
      unfold Sends at hstop ⊢
      rwa [herr]
    exact ⟨iff_of_false hnot (hsends.not.1 hstop), fun _ s'' hrun =>
      (given_up hstop' hrun).1.trans hsent⟩
  · exact ⟨iff_of_true hsent (hsends.1 hgo), fun hnot => absurd hsent hnot⟩

def lost : RouteCall := { text := "x".toList, socket := 3, ready := true, sts := -1 }

def onceConfig : UdpRouteConfig := { errorMax := 1, pid := 77 }

/-- With a threshold of one, after a message that was lost. -/
theorem attempts_iff_once : ∃ s s', Reaches (routePayload onceConfig) {} s ∧
    routePayload onceConfig lost s = some s' ∧
    (Attempts onceConfig lost s s' ↔ s.failures < onceConfig.errorMax.toInt) ∧
      (¬Attempts onceConfig lost s s' →
        ∀ s'', Reaches (routePayload onceConfig) s' s'' → s''.sent = s.sent) :=
  have h : Reaches (routePayload onceConfig) {} _ := reaches_exec [lost] rfl
  ⟨_, _, h, rfl, attempts_iff (by decide) h rfl⟩

end UdpRoute

end MfExtensions
