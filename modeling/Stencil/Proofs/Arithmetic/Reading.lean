import Stencil.Proofs.Arithmetic.Grammar
import Stencil.Proofs.Tag.Grammar

/-! # What an expression is read from

No lexeme of an expression is a character that begins no token (`used_of_parse`). So the text of an
expression has no other white space than that between tokens, and it stays the same expression without the
white space behind it (`parse_trimEnd`). -/
set_option autoImplicit false
namespace Stencil.Arithmetic

/-! ## Lexemes -/

def EndsToken (c : Char) : Prop := c.isDigit = false ∧ isNameChar c = false ∧ c ≠ '.'

theorem span_append_of_head? {p : Char → Bool} {w : Text} (hw : ∀ c ∈ w.head?, p c = false) :
    ∀ t : Text, (t ++ w).takeWhile p = t.takeWhile p ∧ (t ++ w).dropWhile p = t.dropWhile p ++ w := by
  intro t
  induction t with
  | nil =>
      cases w with
      | nil => exact ⟨rfl, rfl⟩
      | cons c w =>
          have hc : p c = false := hw c rfl
          simp [hc]
  | cons c t ih =>
      rw [List.cons_append]
      by_cases hc : p c = true
      · rw [List.takeWhile_cons_of_pos hc, List.takeWhile_cons_of_pos hc, List.dropWhile_cons_of_pos hc,
          List.dropWhile_cons_of_pos hc, ih.1, ih.2]
        exact ⟨rfl, rfl⟩
      · rw [List.takeWhile_cons_of_neg hc, List.takeWhile_cons_of_neg hc, List.dropWhile_cons_of_neg hc,
          List.dropWhile_cons_of_neg hc]
        exact ⟨rfl, rfl⟩

theorem splitNumeral_append {t w whole fraction after : Text} (hw : ∀ c ∈ w.head?, EndsToken c)
    (h : Decimal.splitNumeral t = (whole, fraction, after)) :
    Decimal.splitNumeral (t ++ w) = (whole, fraction, after ++ w) := by
  have hdigit : ∀ c ∈ w.head?, c.isDigit = false := fun c hc => (hw c hc).1
  obtain ⟨htake, hdrop⟩ := span_append_of_head? hdigit t
  simp only [Decimal.splitNumeral] at h ⊢
  rw [htake, hdrop]
  cases hbehind : t.dropWhile Char.isDigit with
  | nil =>
      rw [hbehind] at h
      simp only [Prod.mk.injEq] at h
      obtain ⟨rfl, rfl, rfl⟩ := h
      cases w with
      | nil => rfl
      | cons d w =>
          have hpoint : d ≠ '.' := (hw d rfl).2.2
          rw [List.nil_append]
          split
          next heq => exact absurd (List.cons.inj heq).1 hpoint
          next => rfl
  | cons c rest =>
      rw [hbehind] at h
      rw [List.cons_append]
      by_cases hpoint : c = '.'
      · subst hpoint
        obtain ⟨htake', hdrop'⟩ := span_append_of_head? hdigit rest
        simp only [htake', hdrop'] at h ⊢
        by_cases hnone : rest.takeWhile Char.isDigit = []
        · rw [if_pos hnone] at h ⊢
          simp only [Prod.mk.injEq] at h
          obtain ⟨rfl, rfl, rfl⟩ := h
          rfl
        · rw [if_neg hnone] at h ⊢
          simp only [Prod.mk.injEq] at h
          obtain ⟨rfl, rfl, rfl⟩ := h
          rfl
      · split at h
        next heq => exact absurd (List.cons.inj heq).1 hpoint
        next =>
          simp only [Prod.mk.injEq] at h
          obtain ⟨rfl, rfl, rfl⟩ := h
          split
          next heq => exact absurd (List.cons.inj heq).1 hpoint
          next => rfl

theorem exists_lexFrom_append {w : Text} (hw : ∀ c ∈ w.head?, EndsToken c) (o : Nat) (t : Text) :
    ∃ o', lexFrom o (t ++ w) = lexFrom o t ++ lexFrom o' w := by
  fun_induction lexFrom o t with
  | case1 o => exact ⟨o, rfl⟩
  | case2 o c rest hspace ih =>
      obtain ⟨o', ho'⟩ := ih
      refine ⟨o', ?_⟩
      rw [List.cons_append, lexFrom, if_pos hspace, ho']
  | case3 o c rest hspace hdigit whole fraction after hsplit ih =>
      obtain ⟨o', ho'⟩ := ih
      refine ⟨o', ?_⟩
      have hlength := Decimal.length_splitNumeral rest
      rw [hsplit] at hlength
      have hoffset : 1 + (rest ++ w).length - (after ++ w).length = 1 + rest.length - after.length := by
        simp only [List.length_append] at hlength ⊢
        omega
      rw [List.cons_append, lexFrom, if_neg hspace, if_pos hdigit]
      simp only [splitNumeral_append hw hsplit, hoffset, ho']
      rfl
  | case4 o c rest hspace hdigit hname more ih =>
      obtain ⟨o', ho'⟩ := ih
      refine ⟨o', ?_⟩
      obtain ⟨htake, hdrop⟩ := span_append_of_head? (p := isNameChar) (fun c hc => (hw c hc).2.1) rest
      rw [List.cons_append, lexFrom, if_neg hspace, if_neg hdigit, if_pos hname]
      simp only [htake, hdrop]
      rw [ho']
      rfl
  | case5 o c rest hspace hdigit hname ih =>
      obtain ⟨o', ho'⟩ := ih
      refine ⟨o', ?_⟩
      rw [List.cons_append, lexFrom, if_neg hspace, if_neg hdigit, if_neg hname, ho']
      rfl

theorem lexFrom_spaces : ∀ {w : Text} (o : Nat), (∀ c ∈ w, isTagSpace c = true) → lexFrom o w = [] := by
  intro w
  induction w with
  | nil => intro o _; rw [lexFrom]
  | cons c w ih =>
      intro o h
      rw [lexFrom, if_pos (h c (List.mem_cons_self ..))]
      exact ih _ fun d hd => h d (List.mem_cons_of_mem _ hd)

/-! ## Reading -/

theorem used_of_parse {t : Text} {e : Expr} (h : parse t = .ok e) :
    ∀ l ∈ lex t, ∀ c, l.token ≠ .other c := by
  intro l hl c hc
  exact (parse_iff_derives.1 h).ne_other c (List.mem_map.2 ⟨l, hl, hc⟩)

/-- The lexemes alone decide what is read. -/
theorem parse_congr {s t : Text} {e : Expr} (hlex : lex s = lex t) (h : parse t = .ok e) :
    parse s = .ok e := by
  rw [parse_iff_derives] at h ⊢
  rwa [hlex]

/-- A character that goes on no token and begins none does not occur in an expression. -/
theorem not_mem_of_parse {t : Text} {e : Expr} {c : Char} (h : parse t = .ok e) (hends : EndsToken c)
    (hspace : isTagSpace c = false) (hsign : signToken c = .other c) : c ∉ t := by
  intro hmem
  obtain ⟨s, u, rfl⟩ := List.append_of_mem hmem
  obtain ⟨o', ho'⟩ := exists_lexFrom_append (w := c :: u) (by simpa using hends) 0 s
  refine used_of_parse h ⟨.other c, o'⟩ ?_ c rfl
  rw [lex, ho']
  refine List.mem_append_right _ ?_
  have hname : isNameStart c = false := by
    rw [Bool.eq_false_iff]
    intro hstart
    exact absurd (Reader.isNameChar_of_isNameStart hstart) (by rw [hends.2.1]; exact Bool.false_ne_true)
  rw [lexFrom, if_neg (by simp [hspace]), if_neg (by simp [hends.1]), if_neg (by simp [hname]), hsign]
  exact List.mem_cons_self ..

theorem endsToken_of_isWhiteSpace {c : Char} (h : isWhiteSpace c = true) : EndsToken c := by
  simp only [isWhiteSpace, Bool.or_eq_true, Bool.and_eq_true, decide_eq_true_eq] at h
  have hdigit : c.isDigit = false := by
    rw [Bool.eq_false_iff]
    intro hd
    have hd' : 48 ≤ c.toNat ∧ c.toNat ≤ 57 := Char.isDigit_iff_toNat.1 hd
    omega
  have hname : isNameStart c = false := by
    rw [Bool.eq_false_iff]
    intro hn
    have hletter := Reader.toNat_of_isNameStart hn
    omega
  refine ⟨hdigit, ?_, ?_⟩
  · simp only [isNameStart, Bool.or_eq_false_iff] at hname
    simp [isNameChar, Char.isAlphanum, hdigit, hname.1, of_decide_eq_false hname.2]
  · rintro rfl
    exact absurd h (by decide)

theorem signToken_of_isWhiteSpace {c : Char} (h : isWhiteSpace c = true) : signToken c = .other c := by
  unfold signToken
  split <;> first | rfl | exact absurd h (by decide)

/-- White space at the end is white space between tokens. -/
theorem trimEnd_append_of_parse {t : Text} {e : Expr} (h : parse t = .ok e) :
    ∃ w, Text.trimEnd t ++ w = t ∧ ∀ c ∈ w, isTagSpace c = true := by
  have hsplit : Text.trimEnd t ++ (t.reverse.takeWhile isWhiteSpace).reverse = t := by
    rw [Text.trimEnd, ← List.reverse_append, List.takeWhile_append_dropWhile, List.reverse_reverse]
  refine ⟨_, hsplit, fun c hc => ?_⟩
  have hwhite := Reader.eq_true_of_mem_takeWhile c (List.mem_reverse.1 hc)
  by_contra hspace
  refine not_mem_of_parse h (endsToken_of_isWhiteSpace hwhite) (by simpa using hspace)
    (signToken_of_isWhiteSpace hwhite) ?_
  rw [← hsplit]
  exact List.mem_append_right _ hc

theorem endsToken_of_isTagSpace {c : Char} (h : isTagSpace c = true) : EndsToken c :=
  endsToken_of_isWhiteSpace (isWhiteSpace_of_isAsciiSpace (isAsciiSpace_of_isTagSpace h))

theorem parse_trimEnd {t : Text} {e : Expr} (h : parse t = .ok e) : parse (Text.trimEnd t) = .ok e := by
  obtain ⟨w, hw, hspaces⟩ := trimEnd_append_of_parse h
  refine parse_congr ?_ h
  obtain ⟨o', ho'⟩ := exists_lexFrom_append (w := w)
    (fun c hc => endsToken_of_isTagSpace (hspaces c (List.mem_of_mem_head? hc))) 0 (Text.trimEnd t)
  rw [hw, lexFrom_spaces o' hspaces, List.append_nil] at ho'
  exact ho'.symm

end Stencil.Arithmetic
