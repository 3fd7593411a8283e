import MfExtensions.RuleTree

/-!
# Printing a rule expression

Every tree has a text (`RuleExpr.spelled_print`): its tokens with a space before each.
-/

namespace MfExtensions

open Peg

theorem space_eq_false {c : Char} (h : nameStart c = true) : space c = false := by
  have hcases : (c.isUpper || c.isLower || c == '_') = true := h
  simp only [Bool.or_eq_true, beq_iff_eq] at hcases
  have hletter : 'A' ≤ c := by
    obtain (hupper | hlower) | rfl := hcases
    · exact (of_decide_eq_true hupper).1
    · have hle : 'a' ≤ c := of_decide_eq_true (Bool.and_elim_left hlower)
      exact le_trans (by decide) hle
    · decide
  have hcr : ¬c ≤ '\r' := fun hc => absurd (hletter.trans hc) (by decide)
  have hblank : c ≠ ' ' := fun hc => absurd (hc ▸ hletter) (by decide)
  simp [space, hcr, hblank]

theorem Name.spaced_token (n : Name) : n.token.Spaced := by
  refine ⟨?_, by show nameChar ' ' = false; decide⟩
  show (!space n.head) = true
  rw [space_eq_false n.head_ok]
  rfl

theorem StrLit.spaced_token (s : StrLit) : s.token.Spaced := ⟨rfl, rfl⟩

theorem Side.spaced_tokens (x : Side) : ∀ t ∈ x.tokens, t.Spaced := by
  cases x <;> decide

theorem RealLit.spaced_text (x : RealLit) : (x.text.head?).any (!space ·) = true := by
  have hdigit : ∀ d : Fin 10, space (digit d) = false := by decide
  obtain ⟨sign, ⟨d, ds⟩, frac, exp⟩ := x
  match sign with
  | none => simp [text, signText, hdigit]
  | some false => rfl
  | some true => rfl

theorem Value.spaced_token (v : Value) : v.token.Spaced := by
  cases v with
  | real x => exact ⟨x.spaced_text, by show RealLit.runsOn ' ' = false; decide⟩
  | bool b => cases b <;> decide
  | str s => exact s.spaced_token

theorem CompareOp.spaced_token (op : CompareOp) : op.token.Spaced := by
  cases op <;> decide

theorem FuncTerm.spaced_tokens (f : FuncTerm) : ∀ t ∈ f.tokens, t.Spaced := by
  obtain ⟨function, cond, arg, args, cmp⟩ := f
  simp only [tokens, List.forall_mem_cons, List.forall_mem_append, List.mem_flatMap]
  refine ⟨function.spaced_token, by decide, cond.spaced_token, ?_, ?_, by decide, ?_⟩
  · cases arg with
    | none => exact List.forall_mem_nil _
    | some x => exact x.spaced_tokens
  · rintro t ⟨v, -, ht⟩
    obtain rfl | rfl : t = .word "," ∨ t = v.token := by simpa using ht
    · decide
    · exact v.spaced_token
  · cases cmp with
    | none => exact List.forall_mem_nil _
    | some c =>
      simp only [Option.elim, List.forall_mem_cons]
      exact ⟨c.1.spaced_token, c.2.spaced_token, List.forall_mem_nil _⟩

mutual

theorem BooleanPrimary.spaced_tokens : ∀ p : BooleanPrimary, ∀ t ∈ p.tokens, t.Spaced
  | .expr e => by
    simp only [BooleanPrimary.tokens, List.forall_mem_cons, List.forall_mem_append]
    exact ⟨by decide, e.spaced_tokens, by decide, List.forall_mem_nil _⟩
  | .condition n => by
    simp only [BooleanPrimary.tokens, List.forall_mem_cons]
    exact ⟨n.spaced_token, List.forall_mem_nil _⟩
  | .function f => by
    rw [BooleanPrimary.tokens]
    exact f.spaced_tokens

theorem BooleanAndExpr.spaced_tokens : ∀ a : BooleanAndExpr, ∀ t ∈ a.tokens, t.Spaced
  | .one p => by
    rw [BooleanAndExpr.tokens]
    exact p.spaced_tokens
  | .and p a => by
    simp only [BooleanAndExpr.tokens, List.forall_mem_cons, List.forall_mem_append]
    exact ⟨p.spaced_tokens, by decide, a.spaced_tokens⟩

theorem BooleanOrExpr.spaced_tokens : ∀ e : BooleanOrExpr, ∀ t ∈ e.tokens, t.Spaced
  | .one a => by
    rw [BooleanOrExpr.tokens]
    exact a.spaced_tokens
  | .or a e => by
    simp only [BooleanOrExpr.tokens, List.forall_mem_cons, List.forall_mem_append]
    exact ⟨a.spaced_tokens, by decide, e.spaced_tokens⟩

end

theorem CondSide.spaced_tokens (c : CondSide) : ∀ t ∈ c.tokens, t.Spaced :=
  List.forall_mem_cons.2 ⟨c.1.spaced_token, c.2.spaced_tokens⟩

theorem ChainEnd.spaced_tokens (last : ChainEnd) : ∀ t ∈ last.tokens, t.Spaced := by
  cases last with
  | none => exact List.forall_mem_nil _
  | any => decide
  | str s =>
    simp only [tokens, List.forall_mem_cons]
    exact ⟨by decide, s.spaced_token, List.forall_mem_nil _⟩

mutual

theorem DomainPrimary.spaced_tokens : ∀ p : DomainPrimary, ∀ t ∈ p.tokens, t.Spaced
  | .expr e => by
    simp only [DomainPrimary.tokens, List.forall_mem_cons, List.forall_mem_append]
    exact ⟨by decide, e.spaced_tokens, by decide, List.forall_mem_nil _⟩
  | .chain c cs last => by
    simp only [DomainPrimary.tokens, List.forall_mem_append, List.mem_flatMap]
    refine ⟨c.spaced_tokens, ?_, last.spaced_tokens⟩
    rintro t ⟨d, -, ht⟩
    obtain rfl | ht := List.mem_cons.1 ht
    · decide
    · exact d.spaced_tokens t ht

theorem DomainAndExpr.spaced_tokens : ∀ a : DomainAndExpr, ∀ t ∈ a.tokens, t.Spaced
  | .one p => by
    rw [DomainAndExpr.tokens]
    exact p.spaced_tokens
  | .and p a => by
    simp only [DomainAndExpr.tokens, List.forall_mem_cons, List.forall_mem_append]
    exact ⟨p.spaced_tokens, by decide, a.spaced_tokens⟩

theorem DomainOrExpr.spaced_tokens : ∀ e : DomainOrExpr, ∀ t ∈ e.tokens, t.Spaced
  | .one a => by
    rw [DomainOrExpr.tokens]
    exact a.spaced_tokens
  | .or a e => by
    simp only [DomainOrExpr.tokens, List.forall_mem_cons, List.forall_mem_append]
    exact ⟨a.spaced_tokens, by decide, e.spaced_tokens⟩

end

/-- Every tree has a text. -/
theorem RuleExpr.spelled_print (t : RuleExpr) : t.Spelled t.print := by
  refine ⟨[], ?_, rfl⟩
  rw [print, String.toList_ofList]
  refine spells_spaced ?_
  obtain ⟨boolean, domain⟩ := t
  simp only [tokens, List.forall_mem_append]
  refine ⟨boolean.spaced_tokens, ?_⟩
  cases domain with
  | none => exact List.forall_mem_nil _
  | some d =>
    simp only [Option.elim, List.forall_mem_cons]
    exact ⟨by decide, d.spaced_tokens⟩

end MfExtensions
