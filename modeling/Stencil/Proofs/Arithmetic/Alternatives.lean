import Stencil.Proofs.Arithmetic.Errors
import Stencil.Proofs.Arithmetic.Tokens
import Stencil.Proofs.Tag.Rejected

/-! # What an error shows and what it expects

An error contradicts itself if one of its alternatives covers what it shows (`SyntaxError.Contradicts`). The
error of a text that is no expression does not: it shows the first lexeme that is left, and none of its
alternatives is at the front of these (`not_contradicts_of_parse`). -/
set_option autoImplicit false
namespace Stencil

namespace Text

theorem mem_dropRepeats {t : Text} : ∀ {ts : List Text}, t ∈ dropRepeats ts ↔ t ∈ ts := by
  intro ts
  fun_induction dropRepeats ts with
  | case1 => rfl
  | case2 => rfl
  | case3 s rest ih => simp [ih]
  | case4 s u rest hne ih => simp [ih]

end Text

namespace SyntaxError

/-- The alternative covers the text: it is the text in quotes, or a kind of text that begins like it. -/
def Covers (alternative found : Text) : Prop :=
  alternative = '"' :: found ++ ['"'] ∨
    (alternative = "identifier".toList ∧ found.head?.any isNameStart = true) ∨
    ((alternative = "number".toList ∨ alternative = "[0-9]".toList) ∧ found.head?.any Char.isDigit = true) ∨
    (alternative = "string".toList ∧ found = ['"'])

def Contradicts (e : SyntaxError) : Prop :=
  ∃ found ∈ e.found, ∃ alternative ∈ e.expected, Covers alternative found

instance (alternative found : Text) : Decidable (Covers alternative found) :=
  inferInstanceAs (Decidable (_ ∨ _))

instance (e : SyntaxError) : Decidable e.Contradicts :=
  inferInstanceAs (Decidable (∃ found ∈ e.found, _))

@[simp] theorem covers_sign {c d : Char} : Covers ['"', c, '"'] [d] ↔ c = d := by
  simp [Covers]

theorem mem_expected_new {t : Text} {expected : List Text} {found : Option Text} {offset : Nat} :
    t ∈ (new expected found offset).expected ↔ t ∈ expected := by
  show t ∈ Text.dropRepeats (Text.sort expected) ↔ _
  rw [Text.mem_dropRepeats, Text.sort, List.mem_mergeSort]

theorem contradicts_new {expected : List Text} {found : Option Text} {offset : Nat} :
    (new expected found offset).Contradicts ↔
      ∃ t ∈ found, ∃ alternative ∈ expected, Covers alternative t := by
  simp only [Contradicts, mem_expected_new]
  rfl

theorem contradicts_rebase {e : SyntaxError} {base : Nat} : (e.rebase base).Contradicts ↔ e.Contradicts :=
  Iff.rfl

theorem contradicts_locate {e : SyntaxError} {source : Text} : (e.locate source).Contradicts ↔ e.Contradicts :=
  Iff.rfl

end SyntaxError

namespace Arithmetic

open Reader (IsName)
open SyntaxError (Covers literal)

/-! ## What a lexeme shows -/

@[simp] theorem display_signToken (c : Char) : (signToken c).display = [c] := by
  unfold signToken
  split <;> rfl

/-- A lexeme is a number, a name or a single character that begins neither. -/
theorem cases_of_mem_lexFrom {x : Lexeme} {o : Nat} {t : Text} (h : x ∈ lexFrom o t) :
    (∃ y, x.token = .number y) ∨ (∃ n, x.token = .name n ∧ IsName n) ∨
      ∃ c, x.token = signToken c ∧ isNameStart c = false ∧ c.isDigit = false := by
  fun_induction lexFrom o t with
  | case1 => cases h
  | case2 o c rest hspace ih => exact ih h
  | case3 o c rest hspace hdigit whole fraction after hsplit ih =>
      rcases List.mem_cons.1 h with rfl | h
      · exact .inl ⟨_, rfl⟩
      · exact ih h
  | case4 o c rest hspace hdigit hname more ih =>
      rcases List.mem_cons.1 h with rfl | h
      · exact .inr (.inl ⟨_, rfl, c, more, rfl, hname, Reader.eq_true_of_mem_takeWhile⟩)
      · exact ih h
  | case5 o c rest hspace hdigit hname ih =>
      rcases List.mem_cons.1 h with rfl | h
      · exact .inr (.inr ⟨c, rfl, Bool.eq_false_iff.2 hname, Bool.eq_false_iff.2 hdigit⟩)
      · exact ih h

theorem formatNumber_ne_sign {c : Char} (hname : isNameChar c = false) (hpoint : c ≠ '.') (x : Float) :
    formatNumber x ≠ [c] := by
  intro h
  by_cases hminus : c = '-'
  · subst hminus
    by_cases hx : Decimal.isFinite x = true
    · rcases isNumeral_formatNumber hx with hnumeral | ⟨u, hu, hnumeral⟩
      · obtain ⟨d, u, hd, hdigit⟩ := hnumeral.exists_cons
        obtain ⟨rfl, -⟩ := List.cons.inj (h.symm.trans hd)
        cases hdigit
      · obtain ⟨d, v, rfl, -⟩ := hnumeral.exists_cons
        cases (List.cons.inj (h.symm.trans hu)).2
    · rcases Reader.formatNumber_of_not_finite hx with hn | ⟨n, hn, d, v, rfl, -⟩
      · have := hn.isNameChar '-' (by simp [h])
        cases this
      · cases (List.cons.inj (h.symm.trans hn)).2
  · have halphanum : c.isAlphanum = false := (Bool.or_eq_false_iff.1 hname).1
    exact not_mem_formatNumber x ⟨halphanum, hminus, hpoint⟩ (by simp [h])

/-- A sign in quotes covers no lexeme but that of the sign. -/
theorem not_covers_sign {x : Lexeme} {o : Nat} {t : Text} {c : Char} (hx : x ∈ lexFrom o t)
    (hname : isNameChar c = false) (hpoint : c ≠ '.') (hne : x.token ≠ signToken c) :
    ¬Covers ['"', c, '"'] x.token.display := by
  have hdisplay : x.token.display ≠ [c] := by
    intro h
    rcases cases_of_mem_lexFrom hx with ⟨y, htoken⟩ | ⟨n, htoken, hn⟩ | ⟨d, htoken, -, -⟩
    · rw [htoken] at h
      exact formatNumber_ne_sign hname hpoint y h
    · rw [htoken] at h
      have hchar := hn.isNameChar c (by rw [show n = [c] from h]; exact List.mem_singleton_self c)
      rw [hname] at hchar
      cases hchar
    · rw [htoken, display_signToken] at h
      exact hne (by rw [htoken, (List.cons.inj h).1])
  rintro (h | ⟨h, -⟩ | ⟨h | h, -⟩ | ⟨h, -⟩)
  · have hquoted : [c] ++ ['"'] = x.token.display ++ ['"'] := (List.cons.inj h).2
    exact hdisplay (List.append_cancel_right hquoted).symm
  all_goals simp at h

theorem not_covers_of_operator {x : Lexeme} {o : Nat} {t : Text} (hx : x ∈ lexFrom o t)
    (h : Phrase.sum.goesOn x.token = false) : ∀ a ∈ operators, ¬Covers a x.token.display := by
  have hsigns : operators = ['*', '+', '-', '/', '^'].map fun c => ['"', c, '"'] := rfl
  rw [hsigns, List.forall_mem_map]
  intro c hc
  have hsign : isNameChar c = false ∧ c ≠ '.' ∧ Phrase.sum.goesOn (signToken c) = true := by
    simp only [List.mem_cons, List.not_mem_nil, or_false] at hc
    rcases hc with rfl | rfl | rfl | rfl | rfl <;> decide
  refine not_covers_sign hx hsign.1 hsign.2.1 fun heq => ?_
  rw [heq, hsign.2.2] at h
  cases h

theorem not_covers_operands {c : Char} (hname : isNameStart c = false) (hdigit : c.isDigit = false)
    (hopening : c ≠ '(') (hminus : c ≠ '-') : ∀ a ∈ operands, ¬Covers a [c] := by
  simp [operands, Covers, literal, hopening.symm, hminus.symm, hname, hdigit]

theorem not_covers_of_operand {x : Lexeme} {o : Nat} {t : Text} (hx : x ∈ lexFrom o t)
    (h : x.token.beginsOperand = false) : ∀ a ∈ operands, ¬Covers a x.token.display := by
  rcases cases_of_mem_lexFrom hx with ⟨y, htoken⟩ | ⟨n, htoken, -⟩ | ⟨c, htoken, hname, hdigit⟩
  · rw [htoken] at h
    cases h
  · rw [htoken] at h
    cases h
  · have hopening : c ≠ '(' := by
      rintro rfl
      rw [htoken] at h
      cases h
    have hminus : c ≠ '-' := by
      rintro rfl
      rw [htoken] at h
      cases h
    rw [htoken, display_signToken]
    exact not_covers_operands hname hdigit hopening hminus

theorem not_contradicts_of_parse {t : Text} {f : SyntaxError} (h : parse t = .error f) : ¬f.Contradicts := by
  obtain ⟨expected, ts, rfl, hts, hmisses⟩ := breaksOff_of_parse h
  cases ts with
  | nil => simp [unexpected, SyntaxError.contradicts_new]
  | cons x rest =>
      have hx : x ∈ lexFrom 0 t := hts.subset (List.mem_cons_self ..)
      have hnone : ∀ a ∈ expected, ¬Covers a x.token.display := by
        cases hmisses with
        | operand hstart => exact not_covers_of_operand hx (hstart x rfl)
        | operator hends => exact not_covers_of_operator hx (hends x rfl)
        | closing hends hclosing =>
            refine List.forall_mem_cons.2 ⟨?_, not_covers_of_operator hx (hends x rfl)⟩
            exact not_covers_sign (c := ')') hx (by decide) (by decide) (hclosing x rfl)
      simpa [unexpected, SyntaxError.contradicts_new] using hnone

end Arithmetic
end Stencil
