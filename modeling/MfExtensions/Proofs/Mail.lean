import MfExtensions.Mail
import MfExtensions.Proofs.Smtp
import MfExtensions.Proofs.Sources
import MfExtensions.Proofs.Upload

/-!
# Mails are read

What a mail is made of is read in it again, message by message, as long as every message has a
severity (`MailConfig.readMail_mail`). Of a run of the destination, the mails that were taken, what
the thread has taken and what is in the buffer are the messages that passed the filters, in their
order, and there is no empty mail (`mails_read`).
-/

namespace MfExtensions

/-- A message and its severity. -/
abbrev Routed := Str × ELsev

/-- The messages as `to_html` writes them. -/
def html (ms : List Routed) : Str := ms.flatMap fun m => Elsmtp.toHtml m.1 m.2

@[simp] theorem html_nil : html [] = [] := rfl

@[simp] theorem html_append (ms ms' : List Routed) : html (ms ++ ms') = html ms ++ html ms' :=
  List.flatMap_append ..

theorem html_singleton (m : Routed) : html [m] = Elsmtp.toHtml m.1 m.2 := List.flatMap_singleton ..

theorem lt_notMem_htmlEscaped (s : Str) : '<' ∉ htmlEscaped s := by
  intro h
  obtain ⟨c, -, hc⟩ := List.mem_flatMap.1 h
  split_ifs at hc with hlt <;> revert hc
  · decide
  · decide
  · decide
  · decide
  · exact fun hc => hlt (List.mem_singleton.1 hc).symm

namespace MailedMsg

/-- What a message looks like in a mail: its text ends at the first NUL. -/
def ofRouted (m : Routed) : MailedMsg where
  color := (Elsmtp.sevColor m.2).takeWhile (· ≠ '>')
  text := cStr m.1

theorem unescape_htmlEscaped (s : Str) : unescape none (htmlEscaped s) = s := by
  induction s with
  | nil => rfl
  | cons c s ih =>
    rw [htmlEscaped_cons, htmlEscaped, List.flatMap_singleton]
    split_ifs with hlt hgt hamp hquot
    · subst hlt
      exact congrArg _ ih
    · subst hgt
      exact congrArg _ ih
    · subst hamp
      exact congrArg _ ih
    · subst hquot
      exact congrArg _ ih
    · rw [List.singleton_append, unescape, if_neg hamp, ih]

theorem behind_append (pre s : Str) : behind pre (pre ++ s) = some s := by
  have hpre : pre.isPrefixOf (pre ++ s) = true := by
    rw [List.isPrefixOf_iff_prefix]
    exact List.prefix_append pre s
  rw [behind, if_pos hpre, List.drop_left]

/-- The end of a tag. -/
theorem behind_gt (s : Str) : behind ">".toList ('>' :: s) = some s := behind_append ['>'] s

theorem behind_of_head {c d : Char} (h : c ≠ d) (pre s : Str) :
    behind (c :: pre) (d :: s) = none := by
  rw [behind, if_neg]
  simp [h]

theorem toHtml_append (m : Routed) (s : Str) : Elsmtp.toHtml m.1 m.2 ++ s =
    "<font color=".toList ++ (Elsmtp.sevColor m.2 ++
      ("<pre>".toList ++ (htmlEscaped (cStr m.1) ++ ("</pre></font>".toList ++ s)))) := by
  have hend : "</pre></font>".toList = "</pre>".toList ++ "</font>".toList := rfl
  delta Elsmtp.toHtml
  rw [hend]
  simp only [List.append_assoc]

/-- The color of a severity, if it has one, is written up to its end. -/
theorem sevColor_eq {sev : ELsev} (h : sev ≠ .noValueAssigned) : ∃ color, '>' ∉ color ∧
    Elsmtp.sevColor sev = color ++ ['>'] := by
  cases sev with
  | noValueAssigned => exact absurd rfl h
  | zeroSeverity | success | unspecified => exact ⟨"#505050".toList, by decide, by decide⟩
  | info => exact ⟨"#008000".toList, by decide, by decide⟩
  | warning => exact ⟨"#E08000".toList, by decide, by decide⟩
  | error | severe | highestSeverity => exact ⟨"#FF0000".toList, by decide, by decide⟩

theorem read_toHtml {m : Routed} (h : m.2 ≠ .noValueAssigned) (s : Str) :
    read (Elsmtp.toHtml m.1 m.2 ++ s) = some (ofRouted m, s) := by
  obtain ⟨color, hcolor, hsev⟩ := sevColor_eq h
  have hview : ofRouted m = { color, text := cStr m.1 } := by
    rw [ofRouted, hsev, Joined.takeWhile_of_notMem hcolor]
  have hlt := lt_notMem_htmlEscaped (cStr m.1)
  rw [toHtml_append, hsev, List.append_assoc, List.singleton_append, hview, read, behind_append,
    Option.bind_eq_bind, Option.bind_some]
  simp only [Joined.takeWhile_of_notMem hcolor, List.drop_left]
  rw [behind_gt, Option.bind_some, behind_append, Option.bind_some]
  have hclose : ∀ t : Str, "</pre></font>".toList ++ t = '<' :: ("/pre></font>".toList ++ t) :=
    fun _ => rfl
  rw [hclose, Joined.takeWhile_of_notMem hlt, List.drop_left, ← hclose, behind_append,
    Option.bind_some, unescape_htmlEscaped]
  rfl

/-- A message without a severity is not read: its color is taken for the tag that should follow. -/
theorem read_noValueAssigned {m : Routed} (h : m.2 = .noValueAssigned) (s : Str) :
    read (Elsmtp.toHtml m.1 m.2 ++ s) = none := by
  have htag : "<pre>".toList = "<pre".toList ++ '>' :: [] := rfl
  have hpre : '>' ∉ "<pre".toList := by decide
  have hcolor : Elsmtp.sevColor .noValueAssigned = [] := rfl
  rw [toHtml_append, h, hcolor, List.nil_append, read, behind_append, Option.bind_eq_bind,
    Option.bind_some, htag, List.append_assoc, List.cons_append, List.nil_append]
  simp only [Joined.takeWhile_of_notMem hpre, List.drop_left]
  rw [behind_gt, Option.bind_some]
  have hnone : behind "<pre>".toList
      (htmlEscaped (cStr m.1) ++ ("</pre></font>".toList ++ s)) = none := by
    have hlt := lt_notMem_htmlEscaped (cStr m.1)
    cases htext : htmlEscaped (cStr m.1) with
    | nil => rfl
    | cons c text =>
      rw [htext, List.mem_cons, not_or] at hlt
      exact behind_of_head hlt.1 _ _
  rw [← htag, hnone]
  rfl

theorem ne_closing (m : Routed) (s : Str) :
    Elsmtp.toHtml m.1 m.2 ++ s ≠ MailConfig.closing := by
  rw [toHtml_append]
  intro h
  exact absurd (List.cons.inj (List.cons.inj h).2).1 (by decide)

/-- The messages of a batch are read if each has a severity. -/
theorem readAll_html : ∀ (ms : List Routed) (n : ℕ), ms.length < n →
    readAll n (html ms ++ MailConfig.closing) =
      if ∀ m ∈ ms, m.2 ≠ .noValueAssigned then some (ms.map ofRouted) else none
  | [], n + 1, _ => by rw [html_nil, List.nil_append, readAll, if_pos rfl, if_pos (by simp)]; rfl
  | m :: ms, n + 1, hn => by
    have hcons : html (m :: ms) ++ MailConfig.closing =
        Elsmtp.toHtml m.1 m.2 ++ (html ms ++ MailConfig.closing) := by
      rw [← List.append_assoc]
      rfl
    rw [hcons, readAll, if_neg (ne_closing m _)]
    by_cases hm : m.2 = .noValueAssigned
    · rw [read_noValueAssigned hm, if_neg fun h => h m List.mem_cons_self hm]
      rfl
    · rw [read_toHtml hm, Option.bind_eq_bind, Option.bind_some]
      simp only []
      rw [readAll_html ms n (Nat.lt_of_succ_lt_succ hn)]
      by_cases hms : ∀ m ∈ ms, m.2 ≠ .noValueAssigned
      · have hall : ∀ m' ∈ m :: ms, m'.2 ≠ .noValueAssigned := by
          rw [List.forall_mem_cons]
          exact ⟨hm, hms⟩
        rw [if_pos hms, if_pos hall]
        rfl
      · rw [if_neg hms, if_neg fun h => hms fun m' hm' => h m' (List.mem_cons_of_mem _ hm')]
        rfl

theorem length_le_html (ms : List Routed) : ms.length ≤ (html ms).length := by
  induction ms with
  | nil => exact Nat.le_refl _
  | cons m ms ih =>
    have hpos := List.length_pos_iff.2 (Elsmtp.toHtml_ne_nil m.1 m.2)
    have hlength : (html (m :: ms)).length = (Elsmtp.toHtml m.1 m.2).length + (html ms).length :=
      List.length_append
    rw [List.length_cons, hlength]
    omega

/-! ## The headers -/

theorem body_line {l : Str} (hl : '\n' ∉ l) (line s : Str) : body line (l ++ '\n' :: s) =
    if line ++ l = ['\r'] then some s else body [] s := by
  induction l generalizing line with
  | nil => rw [List.nil_append, body, if_pos rfl, List.append_nil]
  | cons c l ih =>
    rw [List.mem_cons, not_or] at hl
    rw [List.cons_append, body, if_neg (Ne.symm hl.1), ih hl.2, List.append_assoc,
      List.singleton_append]

/-- Lines of a header are not empty, so its end is the first empty line. -/
theorem body_headers (s : Str) : ∀ ls : List Str, (∀ l ∈ ls, l ≠ [] ∧ '\n' ∉ l) →
    body [] (ls.flatMap (· ++ MailConfig.crlf) ++ MailConfig.crlf ++ s) = some s
  | [], _ => rfl
  | l :: ls, h => by
    obtain ⟨⟨hne, hl⟩, hls⟩ := List.forall_mem_cons.1 h
    have hcr : '\n' ∉ l ++ ['\r'] := by
      rw [List.mem_append, not_or]
      exact ⟨hl, by decide⟩
    have hcons : (l :: ls).flatMap (· ++ MailConfig.crlf) ++ MailConfig.crlf ++ s =
        (l ++ ['\r']) ++ '\n' :: (ls.flatMap (· ++ MailConfig.crlf) ++ MailConfig.crlf ++ s) := by
      rw [List.flatMap_cons]
      simp only [MailConfig.crlf, List.append_assoc, List.cons_append, List.nil_append]
    rw [hcons, body_line hcr, if_neg, body_headers s ls hls]
    rw [List.nil_append]
    exact fun heq => hne (List.append_left_eq_self.1 heq)

end MailedMsg

/-- No member that stands in a header has a newline. -/
structure MailConfig.Plain (k : MailConfig) : Prop where
  toAddresses : ∀ s ∈ k.toAddresses, '\n' ∉ s
  fromAddress : '\n' ∉ k.fromAddress
  subject : '\n' ∉ k.subject

structure Moment.Plain (t : Moment) : Prop where
  date : '\n' ∉ t.date
  subjectDate : '\n' ∉ t.subjectDate
  messageId : '\n' ∉ t.messageId

namespace MailConfig

variable {k : MailConfig} {t : Moment}

theorem notMem_dateTimeNow {date : Str} (h : '\n' ∉ date) : '\n' ∉ dateTimeNow date := by
  rw [dateTimeNow, List.mem_append, not_or]
  exact ⟨h, fun hmem => absurd (List.eq_of_mem_replicate hmem) (by decide)⟩

theorem notMem_domain {from_ : Str} (h : '\n' ∉ from_) : '\n' ∉ domain from_ := by
  unfold domain
  split_ifs
  · exact fun hmem => h (List.dropWhile_subset _ (List.mem_of_mem_tail hmem))
  · exact h

theorem notMem_intercalate : ∀ {ss : List Str}, (∀ s ∈ ss, '\n' ∉ s) →
    '\n' ∉ [',', ' '].intercalate ss
  | [], _ => List.not_mem_nil
  | [s], h => by
    rw [List.intercalate_singleton]
    exact h s (List.mem_singleton_self s)
  | s :: s' :: ss, h => by
    obtain ⟨hs, hss⟩ := List.forall_mem_cons.1 h
    rw [List.intercalate_cons_cons, List.mem_append, List.mem_append, not_or, not_or]
    exact ⟨⟨hs, by decide⟩, notMem_intercalate hss⟩

theorem headerLines_plain (hk : k.Plain) (ht : t.Plain) :
    ∀ l ∈ k.headerLines t, l ≠ [] ∧ '\n' ∉ l := by
  have hto := notMem_intercalate hk.toAddresses
  have hdate := notMem_dateTimeNow ht.date
  have hsubject := notMem_dateTimeNow ht.subjectDate
  have hdomain := notMem_domain hk.fromAddress
  have hpid : '\n' ∉ number t.pid := notMem_number (by decide) (by decide) _
  simp [headerLines, hto, hdate, hsubject, hdomain, hpid, hk.fromAddress, hk.subject, ht.messageId]

/-- A mail is read just as it was written, if every message has a severity. -/
theorem readMail_mail (hk : k.Plain) (ht : t.Plain) (ms : List Routed) :
    MailedMsg.readMail k.messagePrefix (k.mail t (html ms)) =
      if ∀ m ∈ ms, m.2 ≠ .noValueAssigned then some (ms.map MailedMsg.ofRouted) else none := by
  have hmail : k.mail t (html ms) = (k.headerLines t).flatMap (· ++ crlf) ++ crlf ++
      (opening k.messagePrefix ++ (html ms ++ closing)) := by
    rw [mail, headers, List.append_assoc (_ ++ _), List.append_assoc (_ ++ _)]
  rw [MailedMsg.readMail, hmail, MailedMsg.body_headers _ _ (headerLines_plain hk ht),
    Option.bind_eq_bind, Option.bind_some, MailedMsg.behind_append, Option.bind_some]
  refine MailedMsg.readAll_html ms _ ?_
  have hlength := MailedMsg.length_le_html ms
  rw [List.length_append]
  omega

end MailConfig

namespace Mailed

variable {k : MailConfig} {x : Sending}

/-- The library has room for the mail, and takes it. -/
theorem post_eq {payload : Str} (hfits : UploadStatus.Fits (k.mail x.moment payload) x.calls)
    (hroom : (k.mail x.moment payload).length ≤ (UploadStatus.rooms x.calls).sum) :
    post k x payload = some (k.mail x.moment payload) := by
  have hstart : UploadStatus.start (k.mail x.moment payload) (k.mail x.moment payload).length =
      .atPos (k.mail x.moment payload) 0 := rfl
  obtain ⟨pos, hupload⟩ := UploadStatus.upload_eq hfits (Nat.zero_le _)
  unfold post
  simp only []
  rw [hstart, hupload, Option.map_some, UploadStatus.flatMap_whole, List.drop_zero,
    Pieces.flatten_cut, List.take_of_length_le hroom]

/-- What is read in the mail of a batch. -/
def readBatch (batch : List Routed) : Option (List MailedMsg) :=
  if ∀ m ∈ batch, m.2 ≠ .noValueAssigned then some (batch.map MailedMsg.ofRouted) else none

/-- A thread that sleeps has messages waiting for it, and one that sends has taken some. -/
def Holds (taken waiting : List Routed) : SendPhase → Prop
  | .sleeping => taken = [] ∧ waiting ≠ []
  | .sending payload => payload = html taken ∧ taken ≠ []
  | .sent => taken = []

/-- Where the messages are that passed the filters: in the mails, with the thread and in the
buffer. -/
structure Batched (k : MailConfig) (batches : List (List Routed)) (taken waiting : List Routed)
    (s : Mailed) : Prop where
  routed : s.routed.filter (fun m => Elsmtp.passes k.toSmtpConfig m.1) =
    batches.flatten ++ taken ++ waiting
  contents : s.smtp.messageContents = html waiting
  idle : s.smtp.threads = [] → taken = []
  phase : ∀ p ∈ s.smtp.threads, Holds taken waiting p
  batch : ∀ b ∈ batches, b ≠ []
  mails : s.mails.map (MailedMsg.readMail k.messagePrefix) = batches.map readBatch

/-- The library has room for each mail it is given, and the system writes no newline. -/
def Ok (k : MailConfig) (a : SmtpAct × Sending) (s : Mailed) : Prop :=
  ∀ n payload, a.1 = .send n → s.smtp.threads[n]? = some (.sending payload) →
    a.2.moment.Plain ∧ UploadStatus.Fits (k.mail a.2.moment payload) a.2.calls ∧
      (k.mail a.2.moment payload).length ≤ (UploadStatus.rooms a.2.calls).sum

variable {s s' : Mailed} {batches : List (List Routed)} {taken waiting : List Routed}

theorem Batched.routePayload (h : Batched k batches taken waiting s)
    (hacc : Elsmtp.Accounted s.smtp) (text : Str) (sev : ELsev) :
    ∃ waiting', Batched k batches taken waiting' { s with
      smtp := s.smtp.routePayload k.toSmtpConfig text sev
      routed := s.routed ++ [(text, sev)] } := by
  have hone := List.filter_append (p := fun m : Routed => Elsmtp.passes k.toSmtpConfig m.1)
    s.routed [(text, sev)]
  rcases Elsmtp.routePayload_cases k.toSmtpConfig text sev s.smtp with
    ⟨hpass, hsame⟩ | ⟨hpass, hnew⟩
  · refine ⟨waiting, ⟨?_, ?_, ?_, ?_, h.batch, h.mails⟩⟩
    · rw [hone, h.routed, List.filter_singleton, hpass, cond_false, List.append_nil]
    · rw [hsame, h.contents]
    · rw [hsame]
      exact h.idle
    · rw [hsame]
      exact h.phase
  · have hthreads := hacc.threads
    refine ⟨waiting ++ [(text, sev)], ⟨?_, ?_, ?_, ?_, h.batch, h.mails⟩⟩
    · rw [hone, h.routed, List.filter_singleton, hpass, cond_true, List.append_assoc _ waiting]
    · rw [hnew, html_append, html_singleton]
      exact congrArg (· ++ _) h.contents
    · intro hnil
      rw [hnew] at hnil
      split_ifs at hnil hthreads with hactive
      · exact h.idle hnil
      · exact h.idle hthreads
    · intro p hp
      rw [hnew] at hp
      simp only [] at hp
      split_ifs at hp hthreads with hactive
      · have hphase := h.phase p hp
        cases p with
        | sleeping => exact ⟨hphase.1, List.append_ne_nil_of_left_ne_nil hphase.2 _⟩
        | sending payload => exact hphase
        | sent => exact hphase
      · rw [hthreads, List.nil_append, List.mem_singleton] at hp
        subst hp
        exact ⟨h.idle hthreads, by simp⟩

theorem batched_step {a : SmtpAct × Sending} (hk : k.Plain) (h : Batched k batches taken waiting s)
    (hacc : Elsmtp.Accounted s.smtp) (hok : Ok k a s) (hs : step k a s = some s') :
    Elsmtp.Accounted s'.smtp ∧
      ∃ batches taken waiting, Batched k batches taken waiting s' := by
  obtain ⟨act, x⟩ := a
  obtain ⟨smtp, hsmtp, hs⟩ := Option.bind_eq_some_iff.1 hs
  have hacc' := Elsmtp.accounted_step hacc hsmtp
  obtain ⟨text, sev, rfl, rfl⟩ | ⟨n, rfl, hp, rfl⟩ | ⟨n, payload, rfl, hp, rfl⟩ |
    ⟨n, rfl, hp, rfl⟩ | ⟨rfl, -, rfl⟩ := Elsmtp.step_cases hsmtp
  · obtain rfl := Option.some_inj.1 hs
    obtain ⟨waiting', h'⟩ := h.routePayload hacc text sev
    exact ⟨hacc', batches, taken, waiting', h'⟩
  · -- the thread takes what is waiting
    obtain rfl := Option.some_inj.1 hs
    obtain ⟨-, hthreads, rfl⟩ := hacc.only hp
    obtain ⟨rfl, hne⟩ := h.phase _ (by rw [hthreads]; exact List.mem_singleton_self _)
    refine ⟨hacc', batches, waiting, [], ⟨?_, rfl, ?_, ?_, h.batch, h.mails⟩⟩
    · rw [h.routed, List.append_nil, List.append_nil]
    · simp [hthreads]
    · intro p hp
      simp only [hthreads, List.set_cons_zero, List.mem_singleton] at hp
      subst hp
      exact ⟨h.contents, hne⟩
  · -- the batch that was taken is mailed
    obtain ⟨-, hthreads, rfl⟩ := hacc.only hp
    obtain ⟨rfl, hne⟩ := h.phase _ (by rw [hthreads]; exact List.mem_singleton_self _)
    obtain ⟨hmoment, hfits, hroom⟩ := hok 0 _ rfl hp
    simp only [hp, post_eq hfits hroom, Option.bind_eq_bind, Option.bind_some] at hs
    obtain rfl := Option.some_inj.1 hs
    refine ⟨hacc', batches ++ [taken], [], waiting, ⟨?_, h.contents, fun _ => rfl, ?_, ?_, ?_⟩⟩
    · rw [h.routed, List.flatten_append, List.flatten_singleton, List.append_nil]
    · intro p hp
      simp only [hthreads, List.set_cons_zero, List.mem_singleton] at hp
      subst hp
      rfl
    · intro b hb
      rcases List.mem_append.1 hb with hb | hb
      · exact h.batch b hb
      · rw [List.mem_singleton.1 hb]
        exact hne
    · rw [List.map_append, List.map_append, h.mails, List.map_singleton, List.map_singleton,
        MailConfig.readMail_mail hk hmoment]
      rfl
  · obtain rfl := Option.some_inj.1 hs
    obtain ⟨-, hthreads, rfl⟩ := hacc.only hp
    have hphase : Holds taken waiting .sent :=
      h.phase _ (by rw [hthreads]; exact List.mem_singleton_self _)
    obtain rfl : taken = [] := hphase
    refine ⟨hacc', batches, [], waiting, ⟨h.routed, h.contents, fun _ => rfl, ?_, h.batch, h.mails⟩⟩
    intro p hp
    simp [hthreads] at hp
  · obtain rfl := Option.some_inj.1 hs
    exact ⟨hacc', batches, taken, waiting,
      ⟨h.routed, h.contents, h.idle, h.phase, h.batch, h.mails⟩⟩

end Mailed

/-- In every run in which the library has room for each mail, the messages that passed the filters
are those of the mails, those the thread has taken and holds as its payload, and those in the
buffer, in the order in which they came. Every mail has messages, and they are read in it just if
each has a severity. -/
theorem mails_read {k : MailConfig} (hk : k.Plain) {s : Mailed}
    (h : Machine.Run (Mailed.step k) (Mailed.Ok k) {} s) :
    ∃ (batches : List (List Routed)) (taken waiting : List Routed),
      s.routed.filter (fun m => Elsmtp.passes k.toSmtpConfig m.1) =
        batches.flatten ++ taken ++ waiting ∧
      (∀ b ∈ batches, b ≠ []) ∧
      s.mails.map (MailedMsg.readMail k.messagePrefix) = batches.map (fun b =>
        if ∀ m ∈ b, m.2 ≠ .noValueAssigned then some (b.map MailedMsg.ofRouted) else none) ∧
      (s.smtp.sendingThreadActive = false → taken = []) ∧
      (∀ p ∈ s.smtp.threads, Mailed.Holds taken waiting p) ∧
      s.smtp.messageContents = html waiting := by
  have hstart : Mailed.Batched k [] [] [] {} :=
    ⟨rfl, rfl, fun _ => rfl, fun p hp => absurd hp List.not_mem_nil,
      fun b hb => absurd hb List.not_mem_nil, rfl⟩
  have hidle : Elsmtp.Accounted {} := ⟨rfl, rfl⟩
  obtain ⟨hacc, batches, taken, waiting, hbatched⟩ := h.invariant
    (I := fun s => Elsmtp.Accounted s.smtp ∧ ∃ bs ts ws, Mailed.Batched k bs ts ws s)
    ⟨hidle, [], [], [], hstart⟩ fun a s s' hI hok hs => by
      obtain ⟨hacc, bs, ts, ws, hb⟩ := hI
      exact Mailed.batched_step hk hb hacc hok hs
  refine ⟨batches, taken, waiting, hbatched.routed, hbatched.batch, hbatched.mails, fun hoff => ?_,
    hbatched.phase, hbatched.contents⟩
  have hthreads := hacc.threads
  rw [hoff] at hthreads
  exact hbatched.idle hthreads

/-- Mails of nothing but their messages, to nobody. -/
def bareMail : MailConfig where
  toSmtpConfig := openConfig
  fromAddress := "a@b".toList

/-- The library takes a mail in two pieces. -/
def bareSending : Sending where
  moment := ⟨"now".toList, "now".toList, "1".toList, 1⟩
  calls := [(1, 100), (8, 200)]

/-- The thread has taken the first message, and a second one waits. -/
def takenOne : Mailed where
  smtp :=
    { sendingThreadActive := true
      messageContents := Elsmtp.toHtml "c".toList .info
      threads := [.sending (Elsmtp.toHtml "a<b".toList .error)]
      accepted := [Elsmtp.toHtml "a<b".toList .error, Elsmtp.toHtml "c".toList .info] }
  routed := [("a<b".toList, .error), ("c".toList, .info)]

theorem run_takenOne : Machine.Run (Mailed.step bareMail) (Mailed.Ok bareMail) {} takenOne := by
  have h₁ : Machine.Run (Mailed.step bareMail) (Mailed.Ok bareMail) {} _ :=
    Machine.Run.next .refl (a := (.routePayload "a<b".toList .error, bareSending))
      (fun _ _ hact => nomatch hact) rfl
  have h₂ := h₁.next (a := (.swap 0, bareSending)) (fun _ _ hact => nomatch hact) rfl
  exact h₂.next (a := (.routePayload "c".toList .info, bareSending))
    (fun _ _ hact => nomatch hact) rfl

theorem mails_read_first : ∃ s : Mailed,
    s.mails.map (MailedMsg.readMail []) = [some [⟨"#FF0000".toList, "a<b".toList⟩]] ∧
    ∃ (batches : List (List Routed)) (taken waiting : List Routed),
      s.routed.filter (fun m => Elsmtp.passes openConfig m.1) =
        batches.flatten ++ taken ++ waiting ∧
      s.mails.map (MailedMsg.readMail []) = batches.map (fun b =>
        if ∀ m ∈ b, m.2 ≠ .noValueAssigned then some (b.map MailedMsg.ofRouted) else none) := by
  have hok : Mailed.Ok bareMail (.send 0, bareSending) takenOne := by
    intro n payload hact hp
    cases hact
    obtain rfl := SendPhase.sending.inj (Option.some_inj.1 hp)
    refine ⟨⟨by decide, by decide, by decide⟩, ?_, by decide +kernel⟩
    unfold UploadStatus.Fits
    decide +kernel
  have hread : (Mailed.step bareMail (.send 0, bareSending) takenOne).map
      (fun s => s.mails.map (MailedMsg.readMail [])) =
      some [some [⟨"#FF0000".toList, "a<b".toList⟩]] := by
    decide +kernel
  obtain ⟨s, hs, hmails⟩ := Option.map_eq_some_iff.1 hread
  have hplain : bareMail.Plain := ⟨fun _ h => absurd h List.not_mem_nil, by decide, by decide⟩
  obtain ⟨batches, taken, waiting, hrouted, -, hbatches, -⟩ :=
    mails_read hplain (run_takenOne.next hok hs)
  exact ⟨s, hmails, batches, taken, waiting, hrouted, hbatches⟩

end MfExtensions
