import Promela.Proofs.Surface.Completeness
import Promela.Proofs.Surface.Rendering

/-! Blocks in braces. Balanced tokens leave the depth as it is, so a block is skipped up to the brace that
closes it. Each closing brace that is missing leaves the depth one higher. -/
namespace Promela

/-- Whether the token stands between braces: it is none, and it does not end the text. -/
def TokenKind.isFlat : TokenKind → Bool
  | openBrace | closeBrace | eof => false
  | _ => true

theorem TokenKind.isFlat_of_inExpr {k : TokenKind} (h : k.inExpr = true) : k.isFlat = true := by
  cases k <;> first | rfl | cases h

namespace Surface

theorem isFlat_of_ne {k : TokenKind} (hopen : k ≠ .openBrace) (hclose : k ≠ .closeBrace) (heof : k ≠ .eof) :
    k.isFlat = true := by
  cases k <;> first | rfl | contradiction

theorem skipBlock_flat {k : TokenKind} (hk : k.isFlat = true) (depth : Nat) (s : Span) (ts : List Token) :
    skipBlock depth (⟨k, s⟩ :: ts) = skipBlock depth ts := by
  cases k <;> first | rfl | cases hk

theorem skipBlock_openBrace (depth : Nat) (s : Span) (ts : List Token) :
    skipBlock depth (⟨.openBrace, s⟩ :: ts) = skipBlock (depth + 1) ts := rfl

theorem skipBlock_closeBrace (depth : Nat) (s : Span) (ts : List Token) :
    skipBlock (depth + 1 + 1) (⟨.closeBrace, s⟩ :: ts) = skipBlock (depth + 1) ts := rfl

namespace Balanced

variable {us vs : List TokenKind}

theorem flat {k : TokenKind} (hk : k.isFlat = true) (h : Balanced us) : Balanced (k :: us) := by
  refine .token ?_ ?_ ?_ h
  all_goals
    rintro rfl
    cases hk

theorem append (hus : Balanced us) (hvs : Balanced vs) : Balanced (us ++ vs) := by
  induction hus with
  | nil => exact hvs
  | token hopen hclose heof _ ih => exact .token hopen hclose heof ih
  | braces hbody _ _ ih =>
    rw [List.append_assoc]
    exact .braces hbody ih

theorem of_all_isFlat (h : us.all TokenKind.isFlat = true) : Balanced us := by
  induction us with
  | nil => exact .nil
  | cons k us ih =>
    rw [List.all_cons, Bool.and_eq_true] at h
    exact .flat h.1 (ih h.2)

end Balanced

/-- The second list is the first one without `n` of its closing braces. -/
inductive Lacks : Nat → List TokenKind → List TokenKind → Prop
  | nil : Lacks 0 [] []
  | keep (k : TokenKind) {n : Nat} {us vs : List TokenKind} : Lacks n us vs → Lacks n (k :: us) (k :: vs)
  | drop {n : Nat} {us vs : List TokenKind} : Lacks n us vs → Lacks (n + 1) (.closeBrace :: us) vs

namespace Lacks

theorem refl (ks : List TokenKind) : Lacks 0 ks ks := by
  induction ks with
  | nil => exact .nil
  | cons k ks ih => exact .keep k ih

variable {n : Nat} {ks ls : List TokenKind} {us : List Token}

theorem of_nil (h : Lacks n [] (us.map Token.kind)) : n = 0 ∧ us = [] := by
  generalize hus : us.map Token.kind = ls at h
  cases h
  exact ⟨rfl, List.map_eq_nil_iff.mp hus⟩

theorem of_cons {k : TokenKind} (h : Lacks n (k :: ks) (us.map Token.kind)) (hclose : k ≠ .closeBrace) :
    ∃ s vs, us = ⟨k, s⟩ :: vs ∧ Lacks n ks (vs.map Token.kind) := by
  generalize hus : us.map Token.kind = ls at h
  cases h with
  | keep _ h =>
    obtain ⟨s, vs, rfl, rfl⟩ := map_kind_eq_cons.mp hus
    exact ⟨s, vs, rfl, h⟩
  | drop => exact absurd rfl hclose

theorem of_closeBrace (h : Lacks n (.closeBrace :: ks) (us.map Token.kind)) :
    (∃ s vs, us = ⟨.closeBrace, s⟩ :: vs ∧ Lacks n ks (vs.map Token.kind)) ∨
      ∃ m, n = m + 1 ∧ Lacks m ks (us.map Token.kind) := by
  generalize hus : us.map Token.kind = ls at h
  cases h with
  | keep _ h =>
    obtain ⟨s, vs, rfl, rfl⟩ := map_kind_eq_cons.mp hus
    exact .inl ⟨s, vs, rfl, h⟩
  | @drop m _ _ h => exact .inr ⟨m, rfl, h⟩

theorem of_append (h : Lacks n (ks ++ ls) (us.map Token.kind)) :
    ∃ a b vs ws, us = vs ++ ws ∧ a + b = n ∧ Lacks a ks (vs.map Token.kind) ∧ Lacks b ls (ws.map Token.kind) := by
  induction ks generalizing n us with
  | nil => exact ⟨0, n, [], us, rfl, Nat.zero_add n, .nil, h⟩
  | cons k ks ih =>
    generalize hus : us.map Token.kind = xs at h
    cases h with
    | keep _ h =>
      obtain ⟨s, us, rfl, rfl⟩ := map_kind_eq_cons.mp hus
      obtain ⟨a, b, vs, ws, rfl, rfl, hvs, hws⟩ := ih h
      exact ⟨a, b, ⟨k, s⟩ :: vs, ws, rfl, rfl, .keep k hvs, hws⟩
    | drop h =>
      subst hus
      obtain ⟨a, b, vs, ws, rfl, rfl, hvs, hws⟩ := ih h
      exact ⟨a + 1, b, vs, ws, rfl, Nat.add_right_comm a 1 b, .drop hvs, hws⟩

end Lacks

/-- Each closing brace that is missing leaves the depth one higher. -/
theorem Balanced.skipBlock_of_lacks {ks : List TokenKind} (h : Balanced ks) :
    ∀ {n : Nat} {us : List Token}, Lacks n ks (us.map Token.kind) → ∀ (depth : Nat) (rest : List Token),
      Surface.skipBlock (depth + 1) (us ++ rest) = Surface.skipBlock (depth + n + 1) rest := by
  induction h with
  | nil =>
    intro n us hlacks depth rest
    obtain ⟨rfl, rfl⟩ := hlacks.of_nil
    rfl
  | @token k _ hopen hclose heof _ ih =>
    intro n us hlacks depth rest
    obtain ⟨s, us, rfl, hus⟩ := hlacks.of_cons hclose
    rw [List.cons_append, skipBlock_flat (isFlat_of_ne hopen hclose heof)]
    exact ih hus depth rest
  | braces _ _ ihbody ihafter =>
    intro n us hlacks depth rest
    obtain ⟨s, us, rfl, hcontent⟩ := hlacks.of_cons nofun
    obtain ⟨a, b, body, after, rfl, rfl, hbody, hafter⟩ := hcontent.of_append
    rw [List.cons_append, List.append_assoc, skipBlock_openBrace, ihbody hbody]
    -- the brace that closes the body is there, or it is one of those that are missing
    obtain ⟨s', after, rfl, hclosed⟩ | ⟨c, rfl, hopen⟩ := hafter.of_closeBrace
    · rw [List.cons_append, Nat.add_right_comm depth 1 a, skipBlock_closeBrace, ihafter hclosed, Nat.add_assoc depth a b]
    · rw [ihafter hopen]
      congr 1
      omega

theorem Balanced.skipBlock {ks : List TokenKind} (h : Balanced ks) {us : List Token} (hus : us.map Token.kind = ks)
    (depth : Nat) (rest : List Token) :
    Surface.skipBlock (depth + 1) (us ++ rest) = Surface.skipBlock (depth + 1) rest := by
  subst hus
  exact h.skipBlock_of_lacks (.refl _) depth rest

/-- What follows a block that lacks `n` closing braces is `n` blocks deep, as behind a brace that closes one
block more. -/
theorem Block.skipBlock_of_lacks {ks : List TokenKind} (h : Block ks) :
    ∀ {n : Nat} {us : List Token}, Lacks n ks (us.map Token.kind) → ∀ (s : Span) (rest : List Token),
      Surface.skipBlock 0 (us ++ rest) = Surface.skipBlock (n + 1) (⟨.closeBrace, s⟩ :: rest) := by
  induction h with
  | body hbody =>
    intro n us hlacks s rest
    obtain ⟨s₁, us, rfl, hcontent⟩ := hlacks.of_cons nofun
    obtain ⟨a, b, body, last, rfl, rfl, hinner, hlast⟩ := hcontent.of_append
    rw [List.cons_append, List.append_assoc, skipBlock_openBrace, hbody.skipBlock_of_lacks hinner, Nat.zero_add]
    -- the same of the last brace
    obtain ⟨s₂, last, rfl, hnone⟩ | ⟨c, rfl, hnone⟩ := hlast.of_closeBrace
    · obtain ⟨rfl, rfl⟩ := hnone.of_nil
      rfl
    · obtain ⟨rfl, rfl⟩ := hnone.of_nil
      rfl
  | @head k _ hopen hclose heof _ ih =>
    intro n us hlacks s rest
    obtain ⟨s₁, us, rfl, hus⟩ := hlacks.of_cons hclose
    rw [List.cons_append, skipBlock_flat (isFlat_of_ne hopen hclose heof)]
    exact ih hus s rest

theorem Block.skipBlock {ks : List TokenKind} (h : Block ks) {us : List Token} (hus : us.map Token.kind = ks)
    (rest : List Token) : Surface.skipBlock 0 (us ++ rest) = rest := by
  subst hus
  exact h.skipBlock_of_lacks (.refl _) (.point "" .first) rest

end Surface
end Promela
