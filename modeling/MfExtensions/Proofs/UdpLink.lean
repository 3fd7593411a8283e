import MfExtensions.Proofs.UdpRoundTrip
import MfExtensions.Proofs.UdpRoute
import MfExtensions.UdpLink

/-!
# What arrives over the UDP link

A packet of the form the reader expects is read as the message it was made from
(`Readable.reads`). So whatever the network does, every message that is emitted is one that was
logged, with the number it was logged under, and every datagram that arrives is read
(`link_emits`).
-/

namespace MfExtensions

open UdpReceiver

variable {Tm : Type} {k : LinkConfig Tm} {e : ErrorObj} {u u' : UdpSender} {p : Str}

/-! ## One message -/

/-- The packet of a message is of the form the reader expects, and its buffer is large enough. -/
structure Readable (k : LinkConfig Tm) (e : ErrorObj) (u : UdpSender) : Prop where
  dated : Dated k.lib (k.mf.timestamp e.timestamp)
  clean : ∃ file, Clean k.mf e u file
  bars : bars k.mf e = 1
  severity : k.lib.elSeverity (k.mf.getName e.severity) = e.severity
  body : (UdpSender.fillUsrMsg e).getLast? ≠ some '|'
  seqNum : 0 ≤ u.seqNum ∧ u.seqNum + 1 < 2 ^ 31
  fits : ∀ p u', u.packet k.mf e = some (p, u') → p.length ≤ k.msgMax

/-- `msg` is made of the fields of the message and of its body. -/
def Delivers (k : LinkConfig Tm) (e : ErrorObj) (u : UdpSender) (msg : QtMfMsg) : Prop :=
  ∃ file f, UdpSender.trimFilename u.filenameDelimit e.filename = some file ∧
    Recovers k.mf e u file f ∧ f.message = UdpSender.fillUsrMsg e ∧ msg = toMsg k.lib f

theorem validatePacket_packet (hp : u.packet k.mf e = some (p, u')) : validatePacket p = true := by
  obtain ⟨⟨pre, v⟩, -, hp⟩ := Option.bind_eq_some_iff.1 hp
  obtain ⟨rfl, -⟩ := Prod.mk.inj (Option.some_inj.1 hp)
  obtain ⟨t, ht, hbar⟩ : ∃ t, "UDPMFMESSAGE".toList ++ number v.pid ++ '|' :: pre ++
      UdpSender.fillUsrMsg e = "UDPMFMESSAGE".toList ++ t ∧ '|' ∈ t := by
    refine ⟨number v.pid ++ '|' :: (pre ++ UdpSender.fillUsrMsg e), ?_, ?_⟩
    · rw [List.append_assoc, List.append_assoc]
      rfl
    · exact List.mem_append_right _ List.mem_cons_self
  have htail : "MFMESSAGE".toList ++ t <:+ "UDPMFMESSAGE".toList ++ t := ⟨"UDP".toList, rfl⟩
  have hfront : "MF".toList <+: "MFMESSAGE".toList ++ t := ⟨"MESSAGE".toList ++ t, rfl⟩
  rw [ht, validatePacket, Bool.and_eq_true, List.contains_iff_mem, List.any_eq_true]
  exact ⟨⟨_, (List.mem_tails _ _).2 htail, List.isPrefixOf_iff_prefix.2 hfront⟩,
    List.mem_append_right _ hbar⟩

theorem Readable.reads (hlib : RejectsNumbers k.lib) (h : Readable k e u)
    (hp : u.packet k.mf e = some (p, u')) :
    (∃ fuel r, readMsg k.lib fuel p = some r) ∧
      ∀ fuel r, readMsg k.lib fuel p = some r → ∃ msg, r = .ok msg ∧ Delivers k e u msg := by
  obtain ⟨file, hclean⟩ := h.clean
  obtain ⟨⟨fuel, tv, hends⟩, hall⟩ := readPacket_eq hlib h.dated hclean hp
  refine ⟨⟨fuel, _, by rw [readMsg_eq, hends, Option.map_some]⟩, fun fuel r hr => ?_⟩
  rw [readMsg_eq] at hr
  obtain ⟨fields, hfields, rfl⟩ := Option.map_eq_some_iff.1 hr
  obtain ⟨tv, rfl⟩ := hall hfields
  rw [readFields_header hclean (readNumber_one h.bars h.seqNum) tv]
  refine ⟨_, rfl, file, _, hclean.trimmed,
    ⟨rfl, rfl, rfl, h.severity, rfl, rfl, rfl, rfl, rfl, rfl, rfl⟩, ?_, rfl⟩
  exact (intercalate_tokenize _).trans (if_neg h.body)

theorem fillPrefix_snd {pre : Str} (h : u.fillPrefix k.mf e = some (pre, u')) :
    u' = { u with seqNum := u.seqNum + 1 } := by
  obtain ⟨file, -, h⟩ := Option.bind_eq_some_iff.1 h
  exact (Prod.mk.inj (Option.some_inj.1 h)).2.symm

namespace UdpLink

/-- What a call of the destination does: the message is logged under the next number, and what
`sendto` took is its packet. -/
theorem logMsg_cases {socket sts : ℤ} {ready : Bool} {x x' : LinkSender}
    (h : logMsg k e socket ready sts x = some x') :
    x'.sender = { x.sender with seqNum := x.sender.seqNum + 1 } ∧ x'.logged = x.logged ++ [e] ∧
      ∀ p ∈ taken x x', x.sender.packet k.mf e = some (p, x'.sender) := by
  obtain ⟨⟨pre, sender⟩, hpre, h⟩ := Option.bind_eq_some_iff.1 h
  obtain ⟨route, hroute, h⟩ := Option.bind_eq_some_iff.1 h
  obtain rfl := Option.some_inj.1 h
  refine ⟨fillPrefix_snd hpre, rfl, fun p hp => ?_⟩
  obtain ⟨⟨text, sts'⟩, hsent, rfl⟩ := List.mem_map.1 hp
  have hnew := List.mem_of_mem_filter hsent
  rcases UdpRoute.routePayload_cases hroute with ⟨-, hsame, -⟩ | ⟨-, hsends, -⟩
  · simp [hsame] at hnew
  · rw [UdpRoute.Attempts] at hsends
    simp only [hsends, List.drop_left, List.mem_singleton] at hnew
    have hpacket := UdpRoute.packet_eq (k := routeConfig k x.sender) k.mf e x.sender rfl
    rw [hpacket, hpre, Option.map_some]
    exact congrArg some (Prod.ext (Prod.mk.inj hnew).1.symm rfl)

/-! ## The invariant -/

variable {I : Type} {us : I → UdpSender} {s s' : UdpLink I}

/-- The `n`th message of a process, as its `ELUDP` was when it was logged. -/
def Logged (us : I → UdpSender) (s : UdpLink I) (i : I) (n : ℕ) (e : ErrorObj) (u : UdpSender) :
    Prop :=
  (s.senders i).logged[n]? = some e ∧ u = { us i with seqNum := n }

/-- Every datagram is the packet of a message that was logged, and every message that was emitted is
one. -/
structure Carried (k : LinkConfig Tm) (us : I → UdpSender) (s : UdpLink I) : Prop where
  counted : ∀ i, (s.senders i).sender = { us i with seqNum := (s.senders i).logged.length }
  wire : ∀ p ∈ s.wire, ∃ i n e u u', Logged us s i n e u ∧ Readable k e u ∧
    u.packet k.mf e = some (p, u')
  emitted : ∀ msg ∈ s.emitted, ∃ i n e u, Logged us s i n e u ∧ Delivers k e u msg

/-- Only messages are logged that the reader can read. -/
def Ok (k : LinkConfig Tm) (a : LinkAct I) (s : UdpLink I) : Prop :=
  ∀ i e socket ready sts, a = .log i e socket ready sts → Readable k e (s.senders i).sender

/-- The network and the receiver add no datagram and no message of their own. -/
theorem Carried.of_subset (h : Carried k us s) (hsenders : s'.senders = s.senders)
    (hwire : s'.wire ⊆ s.wire) (hemitted : s'.emitted ⊆ s.emitted) : Carried k us s' := by
  refine ⟨fun i => ?_, fun p hp => ?_, fun msg hmsg => ?_⟩
  · rw [hsenders]
    exact h.counted i
  · unfold Logged
    rw [hsenders]
    exact h.wire p (hwire hp)
  · unfold Logged
    rw [hsenders]
    exact h.emitted msg (hemitted hmsg)

/-- A datagram of the wire fits the buffer and passes the check, so it is read. -/
theorem Carried.receive_iff (h : Carried k us s) (hp : p ∈ s.wire) {fuel : ℕ} {t t' : UdpLink I} :
    receive k p fuel t = some t' ↔ ∃ msg, readMsg k.lib fuel p = some (.ok msg) ∧
      t' = { t with emitted := t.emitted ++ [msg] } := by
  obtain ⟨i, n, e, u, u', -, hread, hpacket⟩ := h.wire p hp
  have hwhole : p.take k.msgMax = p := List.take_of_length_le (hread.fits p u' hpacket)
  unfold receive
  simp only [hwhole, validatePacket_packet hpacket, if_true]
  rcases readMsg k.lib fuel p with _ | _ | msg
  · simp
  · simp
  · simp [eq_comm]

theorem Carried.receive (hlib : RejectsNumbers k.lib) (h : Carried k us s) (hp : p ∈ s.wire)
    {fuel n : ℕ} (hs : receive k p fuel { s with wire := s.wire.eraseIdx n } = some s') :
    Carried k us s' := by
  obtain ⟨msg, hmsg, rfl⟩ := (h.receive_iff hp).1 hs
  obtain ⟨i, m, e, u, u', hn, hread, hpacket⟩ := h.wire p hp
  obtain ⟨msg', heq, hdelivers⟩ := (hread.reads hlib hpacket).2 fuel _ hmsg
  obtain rfl := Except.ok.inj heq
  have hrest : Carried k us { s with wire := s.wire.eraseIdx n } :=
    h.of_subset rfl List.eraseIdx_subset (List.Subset.refl _)
  refine ⟨hrest.counted, hrest.wire, fun msg' hmem => ?_⟩
  rcases List.mem_append.1 hmem with hold | hnew
  · exact h.emitted msg' hold
  · rw [List.mem_singleton.1 hnew]
    exact ⟨i, m, e, u, hn, hdelivers⟩

variable [DecidableEq I]

/-- What was logged before keeps its number. -/
theorem Logged.log {i j : I} {x : LinkSender} {n : ℕ} {e' : ErrorObj} (h : Logged us s j n e' u)
    (hlogged : x.logged = (s.senders i).logged ++ [e])
    (hs : s'.senders = Function.update s.senders i x) : Logged us s' j n e' u := by
  refine ⟨?_, h.2⟩
  rw [hs]
  by_cases hj : j = i
  · subst hj
    rw [Function.update_self, hlogged]
    exact (List.getElem?_append_left (List.getElem?_eq_some_iff.1 h.1).1).trans h.1
  · rw [Function.update_of_ne hj]
    exact h.1

theorem Carried.log {i : I} {x : LinkSender} {socket sts : ℤ} {ready : Bool}
    (h : Carried k us s) (hok : Readable k e (s.senders i).sender)
    (hlog : logMsg k e socket ready sts (s.senders i) = some x) :
    Carried k us { s with
      senders := Function.update s.senders i x
      wire := s.wire ++ taken (s.senders i) x } := by
  obtain ⟨hsender, hlogged, htaken⟩ := logMsg_cases hlog
  have hcounted := h.counted i
  refine ⟨fun j => ?_, fun p hp => ?_, fun msg hmsg => ?_⟩
  · show (Function.update s.senders i x j).sender =
      { us j with seqNum := (Function.update s.senders i x j).logged.length }
    by_cases hj : j = i
    · subst hj
      rw [Function.update_self, hsender, hlogged, hcounted, List.length_append]
      rfl
    · rw [Function.update_of_ne hj]
      exact h.counted j
  · rcases List.mem_append.1 hp with hp | hp
    · obtain ⟨j, n, e', u, u', hn, hread, hpacket⟩ := h.wire p hp
      exact ⟨j, n, e', u, u', hn.log hlogged rfl, hread, hpacket⟩
    · refine ⟨i, (s.senders i).logged.length, e, _, _, ⟨?_, hcounted⟩, hok, htaken p hp⟩
      show (Function.update s.senders i x i).logged[(s.senders i).logged.length]? = some e
      rw [Function.update_self, hlogged, List.getElem?_concat_length]
  · obtain ⟨j, n, e', u, hn, hdelivers⟩ := h.emitted msg hmsg
    exact ⟨j, n, e', u, hn.log hlogged rfl, hdelivers⟩

theorem carried_step {a : LinkAct I} (hlib : RejectsNumbers k.lib) (h : Carried k us s)
    (hok : Ok k a s) (hs : step k a s = some s') : Carried k us s' := by
  cases a with
  | log i e socket ready sts =>
    obtain ⟨x, hlog, hs⟩ := Option.bind_eq_some_iff.1 hs
    obtain rfl := Option.some_inj.1 hs
    exact h.log (hok i e socket ready sts rfl) hlog
  | lose n =>
    obtain rfl := Option.some_inj.1 hs
    exact h.of_subset rfl List.eraseIdx_subset (List.Subset.refl _)
  | duplicate n =>
    obtain ⟨p, hp, hs⟩ := Option.bind_eq_some_iff.1 hs
    obtain rfl := Option.some_inj.1 hs
    refine h.of_subset rfl (List.append_subset.2 ⟨List.Subset.refl _, ?_⟩) (List.Subset.refl _)
    exact List.cons_subset.2 ⟨List.mem_of_getElem? hp, List.nil_subset _⟩
  | receive n fuel =>
    obtain ⟨p, hp, hs⟩ := Option.bind_eq_some_iff.1 hs
    exact h.receive hlib (List.mem_of_getElem? hp) hs

/-- Some round of `run` reads a datagram that is on its way. -/
theorem Carried.arrives (hlib : RejectsNumbers k.lib) (h : Carried k us s) {n : ℕ}
    (hp : s.wire[n]? = some p) : ∃ fuel s' msg, step k (.receive n fuel) s = some s' ∧
      s'.emitted = s.emitted ++ [msg] := by
  have hmem := List.mem_of_getElem? hp
  obtain ⟨i, m, e, u, u', -, hread, hpacket⟩ := h.wire p hmem
  obtain ⟨⟨fuel, r, hr⟩, hall⟩ := hread.reads hlib hpacket
  obtain ⟨msg, rfl, -⟩ := hall fuel r hr
  refine ⟨fuel, { s with wire := s.wire.eraseIdx n, emitted := s.emitted ++ [msg] }, msg, ?_, rfl⟩
  rw [step, hp, Option.bind_eq_bind, Option.bind_some]
  exact (h.receive_iff hmem).2 ⟨msg, hr, rfl⟩

end UdpLink

/-- Whatever the network loses, hands out twice or hands out late: every message that is emitted is
one that a process logged, with its body and all its fields and the number it was logged under; and
every datagram that arrives is read. -/
theorem link_emits {I : Type} [DecidableEq I] {us : I → UdpSender} {s : UdpLink I}
    (hlib : RejectsNumbers k.lib)
    (h : Machine.Run (UdpLink.step k) (UdpLink.Ok k) (.init us) s) :
    (∀ msg ∈ s.emitted, ∃ (i : I) (n : ℕ) (e : ErrorObj) (file : Str) (f : Fields),
      (s.senders i).logged[n]? = some e ∧
      UdpSender.trimFilename (us i).filenameDelimit e.filename = some file ∧
      Recovers k.mf e { us i with seqNum := n } file f ∧
      f.message = UdpSender.fillUsrMsg e ∧ msg = toMsg k.lib f) ∧
    ∀ n < s.wire.length, ∃ fuel s' msg, UdpLink.step k (.receive n fuel) s = some s' ∧
      s'.emitted = s.emitted ++ [msg] := by
  have hstart : UdpLink.Carried k us (.init us) :=
    ⟨fun _ => rfl, fun p hp => absurd hp List.not_mem_nil,
      fun msg hmsg => absurd hmsg List.not_mem_nil⟩
  have hcarried := h.invariant (I := UdpLink.Carried k us) hstart
    fun _ _ _ hI hok hs => UdpLink.carried_step hlib hI hok hs
  refine ⟨fun msg hmsg => ?_, fun n hn => hcarried.arrives hlib (List.getElem?_eq_getElem hn)⟩
  obtain ⟨i, n, e, u, ⟨hn, rfl⟩, file, f, hfile, hrecovers, hbody, hmake⟩ :=
    hcarried.emitted msg hmsg
  exact ⟨i, n, e, file, f, hn, hfile, hrecovers, hbody, hmake⟩

/-- One process, and a format with a separator after the date. -/
def secondLink : LinkConfig Unit where
  mf := secondMf ['|']
  lib := secondLib
  msgMax := 1000

theorem second_readable : Readable secondLink (infoObj "a|b".toList) (sender "node".toList) := by
  have hfits : ((sender "node".toList).packet (secondMf ['|']) (infoObj "a|b".toList)).all
      (fun r => r.1.length ≤ 1000) = true := by
    decide +kernel
  refine ⟨second_dated ['|'] _, ⟨_, sender_clean ['|'] _ _ (by decide)⟩, by decide, by decide,
    by decide, by decide, fun p u' hp => ?_⟩
  rw [show (sender "node".toList).packet (secondMf ['|']) _ = _ from hp] at hfits
  exact of_decide_eq_true hfits

/-- A datagram is handed out twice, and the second one is late. -/
theorem link_emits_twice : ∃ s : UdpLink Unit,
    s.emitted.map QtMfMsg.sourceSequence = [1] ∧ s.wire.length = 1 ∧
      ∃ fuel s' msg, UdpLink.step secondLink (.receive 0 fuel) s = some s' ∧
        s'.emitted = s.emitted ++ [msg] := by
  have hrun : (((UdpLink.step secondLink (.log () (infoObj "a|b".toList) 3 true 90)
      (.init fun _ => sender "node".toList)).bind (UdpLink.step secondLink (.duplicate 0))).bind
      (UdpLink.step secondLink (.receive 1 100))).map
        (fun s => (s.emitted.map QtMfMsg.sourceSequence, s.wire.length)) = some ([1], 1) := by
    decide +kernel
  obtain ⟨s, hs, hfacts⟩ := Option.map_eq_some_iff.1 hrun
  obtain ⟨s₂, hs₂, h₃⟩ := Option.bind_eq_some_iff.1 hs
  obtain ⟨s₁, h₁, h₂⟩ := Option.bind_eq_some_iff.1 hs₂
  obtain ⟨hemitted, hwire⟩ := Prod.mk.inj hfacts
  have hok : UdpLink.Ok secondLink (.log () (infoObj "a|b".toList) 3 true 90)
      (.init fun _ : Unit => sender "node".toList) := by
    intro i e socket ready sts hact
    cases hact
    exact second_readable
  have hreach₁ := Machine.Run.next .refl hok h₁
  have hreach₂ := hreach₁.next (a := .duplicate 0) (fun _ _ _ _ _ hact => nomatch hact) h₂
  have hreach := hreach₂.next (a := .receive 1 100) (fun _ _ _ _ _ hact => nomatch hact) h₃
  exact ⟨s, hemitted, hwire, (link_emits secondLib_rejectsNumbers hreach).2 0 (by omega)⟩

end MfExtensions
