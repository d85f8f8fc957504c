import Stencil.Proofs.Arithmetic.Grammar
import Stencil.Proofs.Tag.Grammar

/-! # The tokens of a text

`Spells` says how each token is written, and `Tokens` takes a text apart into spaces and tokens, each as
long as it can be. The lexer does the same, and it gives a token of its own for each character that
neither begins a token nor is a space (`tokens_iff_lex`). So a text is an expression exactly when its tokens
form a sum (`parse_iff_sum`). -/
set_option autoImplicit false
namespace Stencil.Arithmetic

open Reader (IsName)

def signs : List (Char × Token) :=
  [('+', .plus), ('-', .minus), ('*', .star), ('/', .slash), ('^', .caret), ('(', .opening),
    (')', .closing)]

inductive Spells : Token → Text → Prop
  | number {whole fraction : Text} : whole ≠ [] → (∀ c ∈ whole, c.isDigit = true) →
      (∀ c ∈ fraction, c.isDigit = true) →
      Spells (.number (Decimal.ofNumeral false whole fraction))
        (whole ++ if fraction = [] then [] else '.' :: fraction)
  | name {n : Text} : IsName n → Spells (.name n) n
  | sign {c : Char} {t : Token} : (c, t) ∈ signs → Spells t [c]

/-- No token that the text begins with is written with more than `z`. -/
def Longest (z t : Text) : Prop :=
  ∀ (other : Token) (y : Text), Spells other y → y <+: t → y.length ≤ z.length

inductive Tokens : Text → List Token → Prop
  | nil : Tokens [] []
  | space {c : Char} {t : Text} {ts : List Token} : isTagSpace c = true → Tokens t ts → Tokens (c :: t) ts
  | token {z t : Text} {first : Token} {ts : List Token} : Spells first z → Longest z (z ++ t) →
      Tokens t ts → Tokens (z ++ t) (first :: ts)

/-! ## Spellings -/

theorem Spells.ne_nil {first : Token} {z : Text} (h : Spells first z) : z ≠ [] := by
  cases h with
  | number hne _ _ => simp [hne]
  | name hn =>
      obtain ⟨c, u, rfl, -, -⟩ := hn
      exact List.cons_ne_nil c u
  | sign _ => exact List.cons_ne_nil _ []

theorem Spells.ne_other {first : Token} {z : Text} (h : Spells first z) (c : Char) : first ≠ .other c := by
  rintro rfl
  cases h with
  | sign hmem => simp [signs] at hmem

/-- Where a token can be read at all there is a longest one. -/
theorem exists_longest {other : Token} {y t : Text} (h : Spells other y) (hy : y <+: t) :
    ∃ first z rest, Spells first z ∧ t = z ++ rest ∧ Longest z t := by
  by_cases hlongest : Longest y t
  · obtain ⟨rest, rfl⟩ := hy
    exact ⟨other, y, rest, h, rfl, hlongest⟩
  · simp only [Longest, not_forall] at hlongest
    obtain ⟨another, z, hz, hprefix, hlt⟩ := hlongest
    exact exists_longest hz hprefix
termination_by t.length - y.length
decreasing_by
  have := hprefix.length_le
  omega

/-- A character that would go on a longest token does not follow it. -/
theorem Longest.not_spells {other : Token} {z t u : Text} (h : Longest z (z ++ (u ++ t))) (hu : u ≠ []) :
    ¬ Spells other (z ++ u) := by
  intro hspells
  have hlength := h other (z ++ u) hspells (by rw [← List.append_assoc]; exact List.prefix_append ..)
  have hpos : 0 < u.length := List.length_pos_iff.2 hu
  rw [List.length_append] at hlength
  omega

/-! ## The lexer takes the longest token -/

/-- A numeral without a fraction, and one with a fraction. -/
theorem spells_whole {whole : Text} (hne : whole ≠ []) (hwhole : ∀ c ∈ whole, c.isDigit = true) :
    Spells (.number (Decimal.ofNumeral false whole [])) whole := by
  have h := Spells.number hne hwhole (List.forall_mem_nil fun c => Char.isDigit c = true)
  rwa [if_pos rfl, List.append_nil] at h

theorem spells_fraction {whole fraction : Text} (hne : whole ≠ []) (hwhole : ∀ c ∈ whole, c.isDigit = true)
    (hne' : fraction ≠ []) (hfraction : ∀ c ∈ fraction, c.isDigit = true) :
    Spells (.number (Decimal.ofNumeral false whole fraction)) (whole ++ '.' :: fraction) := by
  have h := Spells.number hne hwhole hfraction
  rwa [if_neg hne'] at h

theorem forall_mem_append_singleton {p : Char → Bool} {u : Text} {d : Char} (hu : ∀ c ∈ u, p c = true)
    (hd : p d = true) : ∀ c ∈ u ++ [d], p c = true := by
  simpa [or_imp, forall_and, hd] using hu

theorem splitNumeral_of_longest {whole fraction t : Text} (hne : whole ≠ [])
    (hwhole : ∀ c ∈ whole, c.isDigit = true) (hfraction : ∀ c ∈ fraction, c.isDigit = true)
    (h : Longest (whole ++ if fraction = [] then [] else '.' :: fraction)
      ((whole ++ if fraction = [] then [] else '.' :: fraction) ++ t)) :
    Decimal.splitNumeral ((whole ++ if fraction = [] then [] else '.' :: fraction) ++ t) =
      (whole, fraction, t) := by
  by_cases hnil : fraction = []
  · subst hnil
    simp only [if_true, List.append_nil] at h ⊢
    refine Reader.splitNumeral_whole hwhole (fun d hd => ?_) fun hpoint d hd => ?_
    · obtain ⟨u, rfl⟩ := List.head?_eq_some_iff.1 hd
      rw [Bool.eq_false_iff]
      intro hdigit
      exact h.not_spells (u := [d]) (by simp)
        (spells_whole (by simp) (forall_mem_append_singleton hwhole hdigit))
    · obtain ⟨u, rfl⟩ := List.head?_eq_some_iff.1 hpoint
      obtain ⟨u, rfl⟩ := List.head?_eq_some_iff.1 hd
      rw [Bool.eq_false_iff]
      intro hdigit
      exact h.not_spells (u := ['.', d]) (by simp)
        (spells_fraction hne hwhole (List.cons_ne_nil d []) (by simpa using hdigit))
  · simp only [if_neg hnil] at h ⊢
    rw [List.append_assoc, List.cons_append]
    refine Reader.splitNumeral_fraction hwhole hfraction hnil fun d hd => ?_
    obtain ⟨u, rfl⟩ := List.head?_eq_some_iff.1 hd
    rw [Bool.eq_false_iff]
    intro hdigit
    have hlonger := spells_fraction hne hwhole (by simp) (forall_mem_append_singleton hfraction hdigit)
    rw [← List.cons_append, ← List.append_assoc] at hlonger
    exact h.not_spells (u := [d]) (by simp) hlonger

theorem splitNumeral_cons {c : Char} (hc : c.isDigit = true) (t : Text) :
    Decimal.splitNumeral (c :: t) =
      (c :: (Decimal.splitNumeral t).1, (Decimal.splitNumeral t).2) := by
  simp only [Decimal.splitNumeral, List.takeWhile_cons_of_pos hc, List.dropWhile_cons_of_pos hc]
  split
  · split <;> rfl
  · rfl

theorem isTagSpace_of_isDigit {c : Char} (hc : c.isDigit = true) : isTagSpace c = false :=
  Reader.isTagSpace_eq_false (Reader.isNameChar_of_isDigit hc)

theorem isDigit_of_isNameStart {c : Char} (hc : isNameStart c = true) : c.isDigit = false := by
  rw [Bool.eq_false_iff]
  intro hdigit
  simp [Reader.isNameStart_of_isDigit hdigit] at hc

/-- A sign begins nothing else. -/
theorem signToken_of_mem {c : Char} {t : Token} (h : (c, t) ∈ signs) :
    signToken c = t ∧ isTagSpace c = false ∧ c.isDigit = false ∧ isNameStart c = false := by
  have hall : ∀ p ∈ signs, signToken p.1 = p.2 ∧ isTagSpace p.1 = false ∧ p.1.isDigit = false ∧
      isNameStart p.1 = false := by decide
  exact hall (c, t) h

theorem signToken_eq (c : Char) : (c, signToken c) ∈ signs ∨ signToken c = .other c := by
  unfold signToken
  split <;> simp [signs]

theorem lexFrom_of_spells {first : Token} {z t : Text} (h : Spells first z)
    (hlongest : Longest z (z ++ t)) (o : Nat) :
    ∃ o', lexFrom o (z ++ t) = ⟨first, o⟩ :: lexFrom o' t := by
  cases h with
  | @number whole fraction hne hwhole hfraction =>
      have hsplit := splitNumeral_of_longest hne hwhole hfraction hlongest
      obtain ⟨c, whole, rfl⟩ := List.exists_cons_of_ne_nil hne
      have hc : c.isDigit = true := hwhole c (List.mem_cons_self ..)
      rw [List.cons_append, List.cons_append, splitNumeral_cons hc] at hsplit
      obtain ⟨hfirst, hbehind⟩ := Prod.mk.inj hsplit
      have htail : Decimal.splitNumeral ((whole ++ if fraction = [] then [] else '.' :: fraction) ++ t) =
          (whole, fraction, t) := Prod.ext (List.cons.inj hfirst).2 hbehind
      rw [List.cons_append, List.cons_append, lexFrom, if_neg (by simp [isTagSpace_of_isDigit hc]),
        if_pos hc]
      simp only [htail]
      exact ⟨_, rfl⟩
  | name hn =>
      obtain ⟨c, u, rfl, hc, hu⟩ := hn
      have hends : ∀ d ∈ t.head?, isNameChar d = false := by
        intro d hd
        obtain ⟨t', rfl⟩ := List.head?_eq_some_iff.1 hd
        rw [Bool.eq_false_iff]
        intro hchar
        exact hlongest.not_spells (u := [d]) (by simp)
          (.name ⟨c, u ++ [d], rfl, hc, forall_mem_append_singleton hu hchar⟩)
      rw [List.cons_append, lexFrom, if_neg (by simp [Reader.isTagSpace_of_isNameStart hc]),
        if_neg (by simp [isDigit_of_isNameStart hc]), if_pos hc]
      simp only [Reader.takeWhile_append_of_head? hu hends, Reader.dropWhile_append_of_head? hu hends]
      exact ⟨_, rfl⟩
  | @sign c t' hmem =>
      obtain ⟨rfl, hspace, hdigit, hstart⟩ := signToken_of_mem hmem
      rw [List.singleton_append, lexFrom, if_neg (by simp [hspace]), if_neg (by simp [hdigit]),
        if_neg (by simp [hstart])]
      exact ⟨_, rfl⟩

theorem Tokens.lexFrom {t : Text} {ts : List Token} (h : Tokens t ts) (o : Nat) :
    (lexFrom o t).map Lexeme.token = ts := by
  induction h generalizing o with
  | nil => rw [Arithmetic.lexFrom, List.map_nil]
  | space hc _ ih => rw [Arithmetic.lexFrom, if_pos hc, ih]
  | token hspells hlongest _ ih =>
      obtain ⟨o', ho'⟩ := lexFrom_of_spells hspells hlongest o
      rw [ho', List.map_cons, ih]

theorem Tokens.ne_other {t : Text} {ts : List Token} (h : Tokens t ts) (c : Char) : .other c ∉ ts := by
  induction h with
  | nil => exact List.not_mem_nil
  | space _ _ ih => exact ih
  | token hspells _ _ ih => simp [hspells.ne_other c |>.symm, ih]

/-- A character that is not a space begins a token, or the lexer gives it a token of its own. -/
theorem exists_spells_or_other {c : Char} (hspace : isTagSpace c = false) (o : Nat) (t : Text) :
    (∃ other, Spells other [c]) ∨ ∃ o', lexFrom o (c :: t) = ⟨.other c, o⟩ :: lexFrom o' t := by
  by_cases hdigit : c.isDigit = true
  · exact .inl ⟨_, spells_whole (by simp) (by simpa using hdigit)⟩
  · by_cases hstart : isNameStart c = true
    · exact .inl ⟨_, .name ⟨c, [], rfl, hstart, by simp⟩⟩
    · rcases signToken_eq c with hmem | hother
      · exact .inl ⟨_, .sign hmem⟩
      · rw [lexFrom, if_neg (by simp [hspace]), if_neg hdigit, if_neg hstart, hother]
        exact .inr ⟨_, rfl⟩

theorem tokens_of_lexFrom (o : Nat) (t : Text) (h : ∀ c, .other c ∉ (lexFrom o t).map Lexeme.token) :
    Tokens t ((lexFrom o t).map Lexeme.token) := by
  match t with
  | [] =>
      rw [lexFrom]
      exact .nil
  | c :: t =>
      by_cases hspace : isTagSpace c = true
      · rw [lexFrom, if_pos hspace] at h ⊢
        exact .space hspace (tokens_of_lexFrom _ t h)
      · rcases exists_spells_or_other (by simpa using hspace) o t with ⟨other, hother⟩ | ⟨o', ho'⟩
        · obtain ⟨first, z, rest, hspells, heq, hlongest⟩ :=
            exists_longest (t := c :: t) hother ⟨t, rfl⟩
          have hshort : rest.length < t.length + 1 := by
            have hlength := congrArg List.length heq
            have hpos := List.length_pos_iff.2 hspells.ne_nil
            simp only [List.length_cons, List.length_append] at hlength
            omega
          rw [heq] at h hlongest ⊢
          obtain ⟨o', ho'⟩ := lexFrom_of_spells hspells hlongest o
          rw [ho', List.map_cons] at h ⊢
          refine .token hspells hlongest (tokens_of_lexFrom o' rest fun d hd => ?_)
          exact h d (List.mem_cons_of_mem _ hd)
        · exact absurd (by rw [ho']; exact List.mem_cons_self ..) (h c)
termination_by t.length

theorem tokens_iff_lex {t : Text} {ts : List Token} :
    Tokens t ts ↔ ts = (lex t).map Lexeme.token ∧ ∀ c, .other c ∉ ts := by
  constructor
  · intro h
    exact ⟨(h.lexFrom 0).symm, h.ne_other⟩
  · rintro ⟨rfl, h⟩
    exact tokens_of_lexFrom 0 t h

/-! ## Texts of expressions -/

/-- A text is read as an expression exactly when its tokens form the sum of it; and a text has the tokens of
one sequence at most, which form one sum at most. -/
theorem parse_iff_sum :
    (∀ (t : Text) (e : Expr), parse t = .ok e ↔ ∃ ts, Tokens t ts ∧ Derives .sum ts e) ∧
      (∀ (t : Text) (ts ts' : List Token), Tokens t ts → Tokens t ts' → ts = ts') ∧
      ∀ (ts : List Token) (e e' : Expr), Derives .sum ts e → Derives .sum ts e' → e = e' := by
  refine ⟨fun t e => ⟨fun h => ?_, ?_⟩, fun t ts ts' h h' => ?_, fun ts e e' h h' => h.unique h'⟩
  · have hderives := parse_iff_derives.1 h
    exact ⟨_, tokens_iff_lex.2 ⟨rfl, hderives.ne_other⟩, hderives⟩
  · rintro ⟨ts, htokens, hderives⟩
    rw [parse_iff_derives, ← (tokens_iff_lex.1 htokens).1]
    exact hderives
  · rw [(tokens_iff_lex.1 h).1, (tokens_iff_lex.1 h').1]

/-- A power binds tighter than the sign before it, and takes a sign in its exponent. -/
theorem exists_tokens_power : ∃ ts, Tokens "-2^-x ^2 - 1.5".toList ts ∧
    Derives .sum ts (.binary .sub (.neg (.binary .pow (.number (Decimal.ofNumeral false ['2'] []))
      (.neg (.binary .pow (.name ['x']) (.number (Decimal.ofNumeral false ['2'] []))))))
      (.number (Decimal.ofNumeral false ['1'] ['5']))) :=
  (parse_iff_sum.1 _ _).1 (by decide +kernel)

end Stencil.Arithmetic
