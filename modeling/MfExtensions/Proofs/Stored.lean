import MfExtensions.Proofs.UdpPacket

/-!
# What a message stores of a string

A member made by `toHtmlEscaped` from a C string is the string itself only if nothing in it is
escaped and no NUL ends it (`htmlEscaped_cStr_iff`), and the four severities of the viewer stand for
four of the levels.
-/

namespace MfExtensions

/-- No character is escaped, and none ends the string. -/
def Verbatim (s : Str) : Prop := ∀ c ∈ s, c ∉ [Char.ofNat 0, '<', '>', '&', '"']

instance (s : Str) : Decidable (Verbatim s) := List.decidableBAll _ s

theorem Verbatim.nul {s : Str} (h : Verbatim s) : Char.ofNat 0 ∉ s :=
  fun hmem => h _ hmem List.mem_cons_self

theorem htmlEscaped_cons (c : Char) (s : Str) :
    htmlEscaped (c :: s) = htmlEscaped [c] ++ htmlEscaped s := by
  rw [htmlEscaped, htmlEscaped, htmlEscaped, ← List.flatMap_append, List.singleton_append]

/-- A character is written as it is, or as at least four. -/
theorem htmlEscaped_singleton (c : Char) : htmlEscaped [c] = [c] ∧ c ∉ ['<', '>', '&', '"'] ∨
    c ∈ ['<', '>', '&', '"'] ∧ 4 ≤ (htmlEscaped [c]).length := by
  rw [htmlEscaped, List.flatMap_singleton]
  split_ifs with hlt hgt hamp hquot
  · exact .inr ⟨by simp [hlt], by decide⟩
  · exact .inr ⟨by simp [hgt], by decide⟩
  · exact .inr ⟨by simp [hamp], by decide⟩
  · exact .inr ⟨by simp [hquot], by decide⟩
  · exact .inl ⟨rfl, by simp [hlt, hgt, hamp, hquot]⟩

theorem length_htmlEscaped : ∀ s : Str, s.length ≤ (htmlEscaped s).length
  | [] => le_rfl
  | c :: s => by
    have ih := length_htmlEscaped s
    rw [htmlEscaped_cons, List.length_append, List.length_cons]
    rcases htmlEscaped_singleton c with ⟨hc, -⟩ | ⟨-, hc⟩
    · rw [hc, List.length_singleton]
      omega
    · omega

/-- What is escaped is longer by three characters at least. -/
theorem verbatim_of_length : ∀ {s : Str}, (htmlEscaped s).length < s.length + 3 →
    ∀ c ∈ s, c ∉ ['<', '>', '&', '"']
  | [], _ => fun _ h => absurd h List.not_mem_nil
  | c :: s, h => by
    have hle := length_htmlEscaped s
    rw [htmlEscaped_cons, List.length_append, List.length_cons] at h
    rcases htmlEscaped_singleton c with ⟨hc, hplain⟩ | ⟨-, hc⟩
    · rw [hc, List.length_singleton] at h
      rw [List.forall_mem_cons]
      exact ⟨hplain, verbatim_of_length (by omega)⟩
    · omega

theorem htmlEscaped_of_plain : ∀ {s : Str}, (∀ c ∈ s, c ∉ ['<', '>', '&', '"']) →
    htmlEscaped s = s
  | [], _ => rfl
  | c :: s, h => by
    rw [List.forall_mem_cons] at h
    rw [htmlEscaped_cons, htmlEscaped_of_plain h.2]
    rcases htmlEscaped_singleton c with ⟨hc, -⟩ | ⟨hc, -⟩
    · rw [hc, List.singleton_append]
    · exact absurd hc h.1

/-- Escaping writes no NUL. -/
theorem nul_notMem_htmlEscaped_cStr (s : Str) : Char.ofNat 0 ∉ htmlEscaped (cStr s) := by
  intro h
  obtain ⟨c, hc, hmem⟩ := List.mem_flatMap.1 h
  have hne : c ≠ Char.ofNat 0 := by simpa using List.mem_takeWhile_imp hc
  split_ifs at hmem
  · exact absurd hmem (by decide)
  · exact absurd hmem (by decide)
  · exact absurd hmem (by decide)
  · exact absurd hmem (by decide)
  · exact hne (List.mem_singleton.1 hmem).symm

theorem cStr_iff {s : Str} : cStr s = s ↔ Char.ofNat 0 ∉ s := by
  refine ⟨fun h hmem => ?_, UdpReceiver.cStr_eq_self⟩
  rw [← h] at hmem
  simpa using List.mem_takeWhile_imp hmem

/-- With at most two characters more behind it, a string is stored as it is only if it is
verbatim and nothing stands behind it. -/
theorem htmlEscaped_cStr_append_iff {s t : Str} (ht : t.length < 3) :
    htmlEscaped (cStr s) = s ++ t ↔ Verbatim s ∧ t = [] := by
  constructor
  · intro h
    have hnul : Char.ofNat 0 ∉ s := fun hmem =>
      nul_notMem_htmlEscaped_cStr s (h ▸ List.mem_append_left t hmem)
    rw [cStr_iff.2 hnul] at h
    have hlength : (htmlEscaped s).length < s.length + 3 := by
      rw [h, List.length_append]
      omega
    have hplain := verbatim_of_length hlength
    rw [htmlEscaped_of_plain hplain] at h
    refine ⟨fun c hc => ?_, List.append_right_eq_self.1 h.symm⟩
    rw [List.mem_cons, not_or]
    exact ⟨fun heq => hnul (heq ▸ hc), hplain c hc⟩
  · rintro ⟨hs, rfl⟩
    rw [cStr_iff.2 hs.nul, List.append_nil]
    exact htmlEscaped_of_plain fun c hc hmem => hs c hc (List.mem_cons_of_mem _ hmem)

theorem htmlEscaped_cStr_iff {s : Str} : htmlEscaped (cStr s) = s ↔ Verbatim s := by
  simpa using htmlEscaped_cStr_append_iff (s := s) (t := []) (by decide)

theorem notMem_number {c : Char} (hdigit : isDigit c = false) (hminus : c ≠ '-') (n : ℤ) :
    c ∉ number n := by
  intro h
  rcases lt_or_ge n 0 with hn | hn
  · rw [UdpReceiver.number_neg hn, List.mem_cons] at h
    rcases h with h | h
    · exact hminus h
    · rw [UdpReceiver.isDigit_of_mem_number (by omega) h] at hdigit
      simp at hdigit
  · rw [UdpReceiver.isDigit_of_mem_number hn h] at hdigit
    simp at hdigit

theorem verbatim_number (n : ℤ) : Verbatim (number n) := by
  intro c hc hmem
  simp only [List.mem_cons, List.not_mem_nil, or_false] at hmem
  rcases hmem with rfl | rfl | rfl | rfl | rfl <;>
    exact notMem_number (by decide) (by decide) n hc

/-! ## Severities -/

/-- The level that a severity of the viewer stands for. -/
def SevCode.level : SevCode → ELsev
  | .debug => .success
  | .info => .info
  | .warning => .warning
  | .error => .error

theorem level_setSeverity_iff {m : QtMfMsg} {sev : ELsev} (h : m.sev = .error) :
    (m.setSeverity sev).sev.level = sev ↔ sev ∈ [.success, .info, .warning, .error] := by
  cases sev <;> simp [QtMfMsg.setSeverity, SevCode.level, h]

end MfExtensions
