import MfExtensions.Smtp

/-!
# Mail that is not sent

There is at most one sending thread, and no message is lost or sent twice: what was sent, what the
thread has taken and what is in the buffer is what was accepted (`accounted`). A message that comes
while the thread has taken the buffer and not yet stored `sending_thread_active_` starts no thread,
and stays in the buffer when the thread is gone (`stranded`). Without such a message the buffer is
empty whenever no thread is active (`not_stranded`).
-/

namespace MfExtensions

open Machine

namespace Elsmtp

variable (k : SmtpConfig)

/-- What a thread has taken and not yet sent. -/
def taken : SendPhase → Str
  | .sending payload => payload
  | _ => []

/-- There is one thread if the flag says so, and nothing accepted is lost. -/
structure Accounted (s : Elsmtp) : Prop where
  threads : if s.sendingThreadActive then ∃ p, s.threads = [p] else s.threads = []
  contents : s.accepted.flatten =
    s.sent.flatten ++ (s.threads.map taken).flatten ++ s.messageContents

variable {k} {s s' : Elsmtp} {a : SmtpAct} {p : SendPhase} {n : ℕ}

/-- A thread that takes a step is the only one. -/
theorem Accounted.only (h : Accounted s) (hp : s.threads[n]? = some p) :
    s.sendingThreadActive = true ∧ s.threads = [p] ∧ n = 0 := by
  have hthreads := h.threads
  split_ifs at hthreads with hactive
  · obtain ⟨q, hq⟩ := hthreads
    rw [hq] at hp
    have hn : n = 0 := by
      by_contra hn
      rw [List.getElem?_eq_none (by simp only [List.length_singleton]; omega)] at hp
      cases hp
    subst hn
    exact ⟨hactive, by rw [hq, Option.some_inj.1 hp], rfl⟩
  · rw [hthreads] at hp
    cases hp

theorem routePayload_cases (k : SmtpConfig) (text : Str) (sev : ELsev) (s : Elsmtp) :
    (passes k text = false ∧ s.routePayload k text sev = s) ∨
    (passes k text = true ∧ s.routePayload k text sev =
      { s with
        messageContents := s.messageContents ++ toHtml text sev
        accepted := s.accepted ++ [toHtml text sev]
        sendingThreadActive := true
        threads := if s.sendingThreadActive then s.threads else s.threads ++ [.sleeping] }) := by
  unfold routePayload
  cases hpass : passes k text with
  | false => exact .inl ⟨rfl, rfl⟩
  | true =>
    refine .inr ⟨rfl, ?_⟩
    cases hactive : s.sendingThreadActive with
    | true => simp
    | false => simp

/-- What each step of the thread does. -/
theorem step_cases (hs : step k a s = some s') :
    (∃ text sev, a = .routePayload text sev ∧ s' = s.routePayload k text sev) ∨
    (∃ n, a = .swap n ∧ s.threads[n]? = some .sleeping ∧
      s' = { s with threads := s.threads.set n (.sending s.messageContents)
                    messageContents := [] }) ∨
    (∃ n payload, a = .send n ∧ s.threads[n]? = some (.sending payload) ∧
      s' = { s with threads := s.threads.set n .sent, sent := s.sent ++ [payload] }) ∨
    (∃ n, a = .finish n ∧ s.threads[n]? = some .sent ∧
      s' = { s with threads := s.threads.eraseIdx n, sendingThreadActive := false }) ∨
    (a = .destroy ∧ s.sendingThreadActive = false ∧ s' = { s with destroyed := true }) := by
  cases a with
  | routePayload text sev =>
    simp only [step] at hs
    split_ifs at hs
    exact .inl ⟨text, sev, rfl, (Option.some_inj.1 hs).symm⟩
  | swap n =>
    simp only [step] at hs
    split at hs
    · exact .inr (.inl ⟨n, rfl, ‹_›, (Option.some_inj.1 hs).symm⟩)
    · cases hs
  | send n =>
    simp only [step] at hs
    split at hs
    · exact .inr (.inr (.inl ⟨n, _, rfl, ‹_›, (Option.some_inj.1 hs).symm⟩))
    · cases hs
  | finish n =>
    simp only [step] at hs
    split at hs
    · exact .inr (.inr (.inr (.inl ⟨n, rfl, ‹_›, (Option.some_inj.1 hs).symm⟩)))
    · cases hs
  | destroy =>
    simp only [step] at hs
    split_ifs at hs with h
    rw [Bool.or_eq_true, not_or, Bool.not_eq_true] at h
    exact .inr (.inr (.inr (.inr ⟨rfl, h.1, (Option.some_inj.1 hs).symm⟩)))

theorem accounted_step (h : Accounted s) (hs : step k a s = some s') : Accounted s' := by
  obtain ⟨text, sev, -, rfl⟩ | ⟨n, -, hp, rfl⟩ | ⟨n, payload, -, hp, rfl⟩ | ⟨n, -, hp, rfl⟩ |
    ⟨-, hactive, rfl⟩ := step_cases hs
  · obtain ⟨-, hs⟩ | ⟨-, hs⟩ := routePayload_cases k text sev s
    · rwa [hs]
    · have hthreads := h.threads
      have hcontents := h.contents
      rw [hs]
      cases hactive : s.sendingThreadActive with
      | true =>
        rw [hactive] at hthreads
        exact ⟨hthreads, by simp [hcontents]⟩
      | false =>
        rw [hactive] at hthreads
        simp only [Bool.false_eq_true, if_false] at hthreads
        exact ⟨⟨.sleeping, by simp [hthreads]⟩, by simp [hcontents, hthreads, taken]⟩
  · obtain ⟨hactive, hthreads, rfl⟩ := h.only hp
    have hcontents := h.contents
    exact ⟨by simp [hactive, hthreads], by simp [hcontents, hthreads, taken]⟩
  · obtain ⟨hactive, hthreads, rfl⟩ := h.only hp
    have hcontents := h.contents
    exact ⟨by simp [hactive, hthreads], by simp [hcontents, hthreads, taken]⟩
  · obtain ⟨hactive, hthreads, rfl⟩ := h.only hp
    have hcontents := h.contents
    exact ⟨by simp [hthreads], by simp [hcontents, hthreads, taken]⟩
  · exact ⟨h.threads, h.contents⟩

/-- No message is lost or sent twice, and they are sent in the order in which they came. -/
theorem accounted (h : Reaches (step k) {} s) : Accounted s :=
  h.invariant ⟨rfl, rfl⟩ fun _ _ _ hI _ hs => accounted_step hI hs

/-! ## Stranded messages -/

/-- No message passes the filters while a thread has taken the buffer. -/
def Allowed (k : SmtpConfig) : SmtpAct → Elsmtp → Prop
  | .routePayload text _, s => passes k text = true → ∀ p ∈ s.threads, p = .sleeping
  | _, _ => True

/-- What is in the buffer has a thread that will send it. -/
def Waiting (s : Elsmtp) : Prop := s.messageContents ≠ [] → .sleeping ∈ s.threads

theorem waiting_step (hacc : Accounted s) (h : Waiting s) (hok : Allowed k a s)
    (hs : step k a s = some s') : Waiting s' := by
  obtain ⟨text, sev, rfl, rfl⟩ | ⟨n, -, hp, rfl⟩ | ⟨n, payload, -, hp, rfl⟩ | ⟨n, -, hp, rfl⟩ |
    ⟨-, hactive, rfl⟩ := step_cases hs
  · obtain ⟨-, hs⟩ | ⟨hpass, hs⟩ := routePayload_cases k text sev s
    · rwa [hs]
    · have hthreads := hacc.threads
      rw [hs]
      intro _
      split_ifs at hthreads with hactive
      · obtain ⟨p, hp⟩ := hthreads
        have hsleeping := hok hpass p (by rw [hp]; exact List.mem_singleton_self p)
        simp [hactive, hp, hsleeping]
      · simp [hactive]
  · exact fun hne => absurd rfl hne
  · obtain ⟨-, hthreads, rfl⟩ := hacc.only hp
    intro hne
    have := h hne
    simp [hthreads] at this
  · obtain ⟨-, hthreads, rfl⟩ := hacc.only hp
    intro hne
    have := h hne
    simp [hthreads] at this
  · exact h

/-- Where no message comes while a thread has taken the buffer, the buffer is empty when no thread
is active, and all that was accepted has been sent. -/
theorem not_stranded (h : Machine.Run (step k) (Allowed k) {} s) :
    (s.messageContents ≠ [] → .sleeping ∈ s.threads) ∧
    (s.sendingThreadActive = false →
      s.messageContents = [] ∧ s.sent.flatten = s.accepted.flatten) := by
  have hwaiting : Waiting s := (h.invariant (I := fun s => Accounted s ∧ Waiting s)
    ⟨⟨rfl, rfl⟩, fun hne => absurd rfl hne⟩ fun _ _ _ hI hok hs =>
      ⟨accounted_step hI.1 hs, waiting_step hI.1 hI.2 hok hs⟩).2
  refine ⟨hwaiting, fun hactive => ?_⟩
  have hacc := accounted h.reaches
  have hthreads := hacc.threads
  rw [hactive] at hthreads
  simp only [Bool.false_eq_true, if_false] at hthreads
  have hempty : s.messageContents = [] := by
    by_contra hne
    have := hwaiting hne
    rw [hthreads] at this
    cases this
  have hcontents := hacc.contents
  rw [hthreads, hempty] at hcontents
  exact ⟨hempty, by simpa using hcontents.symm⟩

theorem toHtml_ne_nil (text : Str) (sev : ELsev) : toHtml text sev ≠ [] := by
  have hne : "</font>".toList ≠ [] := by decide
  exact List.append_ne_nil_of_right_ne_nil _ hne

/-- A thread that has taken the buffer leaves it as it is. -/
theorem reaches_idle (hthreads : s.threads = [p]) (hp : p ≠ .sleeping) :
    ∃ s', Reaches (step k) s s' ∧ s'.sendingThreadActive = false ∧
      s'.messageContents = s.messageContents := by
  have hfinish : ∀ s : Elsmtp, s.threads = [.sent] → ∃ s', step k (.finish 0) s = some s' ∧
      s'.sendingThreadActive = false ∧ s'.messageContents = s.messageContents := by
    intro s hthreads
    refine ⟨{ s with threads := [], sendingThreadActive := false }, ?_, rfl, rfl⟩
    simp only [step, hthreads, List.getElem?_cons_zero, List.eraseIdx_cons_zero]
  cases p with
  | sleeping => exact absurd rfl hp
  | sent =>
    obtain ⟨s₁, hs, hidle⟩ := hfinish s hthreads
    exact ⟨s₁, Machine.Run.next .refl trivial hs, hidle⟩
  | sending payload =>
    have hsend : step k (.send 0) s = some { s with
        threads := [.sent], sent := s.sent ++ [payload] } := by
      simp only [step, hthreads, List.getElem?_cons_zero, List.set_cons_zero]
    obtain ⟨s₁, hs, hidle⟩ := hfinish { s with threads := [.sent], sent := s.sent ++ [payload] } rfl
    exact ⟨s₁, Machine.Run.next (Machine.Run.next .refl trivial hsend) trivial hs, hidle⟩

/-- A message that passes the filters while the thread has taken the buffer is still in it when the
thread is gone. -/
theorem stranded {text : Str} {sev : ELsev} (h : Reaches (step k) {} s)
    (hs : step k (.routePayload text sev) s = some s')
    (hbad : ¬Allowed k (.routePayload text sev) s) :
    ∃ s'', Reaches (step k) s' s'' ∧ s''.sendingThreadActive = false ∧
      s''.messageContents ≠ [] := by
  have hpass : passes k text = true := by
    by_contra hpass
    exact hbad fun hp => absurd hp hpass
  obtain ⟨p, hp, hne⟩ : ∃ p ∈ s.threads, p ≠ .sleeping := by
    by_contra hall
    push Not at hall
    exact hbad fun _ => hall
  have hthreads := (accounted h).threads
  split_ifs at hthreads with hactive
  · obtain ⟨q, hq⟩ := hthreads
    rw [hq, List.mem_singleton] at hp
    subst hp
    obtain ⟨text', sev', heq, rfl⟩ | ⟨n, heq, -⟩ | ⟨n, payload, heq, -⟩ | ⟨n, heq, -⟩ | ⟨heq, -⟩ :=
      step_cases hs
    · obtain ⟨rfl, rfl⟩ := SmtpAct.routePayload.inj heq
      obtain ⟨hnot, -⟩ | ⟨-, hs'⟩ := routePayload_cases k text sev s
      · rw [hpass] at hnot
        cases hnot
      · rw [hs']
        obtain ⟨s'', hreach, hidle, hcontents⟩ := reaches_idle (k := k) (p := p)
          (s := { s with
            messageContents := s.messageContents ++ toHtml text sev
            accepted := s.accepted ++ [toHtml text sev]
            sendingThreadActive := true
            threads := if s.sendingThreadActive then s.threads else s.threads ++ [.sleeping] })
          (by simp [hactive, hq]) hne
        refine ⟨s'', hreach, hidle, fun hnil => ?_⟩
        rw [hcontents] at hnil
        exact toHtml_ne_nil text sev (List.append_eq_nil_iff.1 hnil).2
    all_goals cases heq
  · rw [hthreads] at hp
    cases hp

end Elsmtp

/-- All messages are sent. -/
def openConfig : SmtpConfig where
  regexSearch _ _ := none

/-- A thread sends the message `a`. -/
theorem not_stranded_first : ∃ s,
    Machine.Run (Elsmtp.step openConfig) (Elsmtp.Allowed openConfig) {} s ∧
    s.sendingThreadActive = false ∧ s.messageContents = [] ∧
      s.sent.flatten = s.accepted.flatten := by
  have h₁ : Machine.Run (Elsmtp.step openConfig) (Elsmtp.Allowed openConfig) {} _ :=
    Machine.Run.next .refl (a := .routePayload "a".toList .error)
      (fun _ _ hp => absurd hp List.not_mem_nil)
      rfl
  have h₂ := h₁.next (a := .swap 0) trivial rfl
  have h₃ := h₂.next (a := .send 0) trivial rfl
  have h₄ := h₃.next (a := .finish 0) trivial rfl
  exact ⟨_, h₄, rfl, (Elsmtp.not_stranded h₄).2 rfl⟩

/-- The message `b` comes between the taking of the buffer and the end of the thread. -/
theorem message_stranded : ∃ s, Reaches (Elsmtp.step openConfig) {} s ∧
    s.sendingThreadActive = false ∧ s.threads = [] ∧ s.messageContents ≠ [] :=
  ⟨_, reaches_exec [.routePayload "a".toList .error, .swap 0, .routePayload "b".toList .error,
    .send 0, .finish 0] rfl, rfl, rfl, Elsmtp.toHtml_ne_nil "b".toList .error⟩

end MfExtensions
