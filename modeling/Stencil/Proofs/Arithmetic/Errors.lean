import Stencil.Proofs.Arithmetic.Grammar
import Stencil.Proofs.Tag.Grammar

/-! # Where an expression breaks off

A reader fails at the front of lexemes that are left, where none of what it expects stands (`sum_error`), and
each lexeme knows the bytes before it (`placed_lexFrom`). So the error of a text that is no expression stands
between two of its characters, and shows the end of input exactly at the end of the text (`place_of_parse`). -/
set_option autoImplicit false
namespace Stencil.Arithmetic

open SyntaxError (literal)

/-! ## Lexemes that are left -/

def Token.beginsOperand : Token → Bool
  | .number _ => true
  | .name _ => true
  | .minus => true
  | .opening => true
  | _ => false

/-- The alternatives are what may come next, and the lexemes begin with none of it. -/
inductive Misses : List Text → List Lexeme → Prop
  | operand {ts : List Lexeme} : (∀ t ∈ ts.head?, t.token.beginsOperand = false) → Misses operands ts
  | operator {ts : List Lexeme} : Phrase.sum.EndsBefore ts → Misses operators ts
  | closing {ts : List Lexeme} : Phrase.sum.EndsBefore ts → (∀ t ∈ ts.head?, t.token ≠ .closing) →
      Misses (literal ")" :: operators) ts

/-- The error is one at the front of the last of these lexemes, or behind all of them. -/
def BreaksOff (stop : Nat) (ts : List Lexeme) (e : SyntaxError) : Prop :=
  ∃ expected rest, e = unexpected expected stop rest ∧ rest <:+ ts ∧ Misses expected rest

variable {stop : Nat} {ts rest : List Lexeme} {left e : Expr} {f : SyntaxError}

theorem BreaksOff.of_suffix (h : BreaksOff stop rest f) (hrest : rest <:+ ts) : BreaksOff stop ts f := by
  obtain ⟨expected, last, hf, hlast, hmisses⟩ := h
  exact ⟨expected, last, hf, hlast.trans hrest, hmisses⟩

theorem Misses.breaksOff {expected : List Text} (h : Misses expected ts) (stop : Nat) :
    BreaksOff stop ts (unexpected expected stop ts) := ⟨expected, ts, rfl, List.suffix_rfl, h⟩

theorem Derived.suffix {p : Phrase} (h : Derived p ts e rest) : rest <:+ ts := by
  obtain ⟨used, rfl, -⟩ := h
  exact List.suffix_append used rest

theorem Derived.endsBefore {p : Phrase} (h : Derived p ts e rest) : p.EndsBefore rest := by
  obtain ⟨-, -, -, hends⟩ := h
  exact hends

mutual

theorem sum_error {ts : List Lexeme} {f : SyntaxError} (h : sum stop ts = .error f) :
    BreaksOff stop ts f := by
  rw [sum] at h
  split at h
  next g hproduct =>
    obtain rfl := Except.error.inj h
    exact product_error hproduct
  next left mid hmid hproduct =>
    have hlt : mid.length < ts.length := hmid
    have hleft : Derived .product ts left mid := product_sound ⟨hmid, hproduct⟩
    split at h
    next g htail =>
      obtain rfl := Except.error.inj h
      exact (sumTail_error htail).of_suffix hleft.suffix
    next => cases h
termination_by 6 * ts.length + 5
decreasing_by
  all_goals omega

theorem sumTail_error {ts : List Lexeme} {left : Expr} {f : SyntaxError}
    (h : sumTail stop left ts = .error f) : BreaksOff stop ts f := by
  match ts with
  | [] => rw [sumTail] at h; cases h
  | t :: ts =>
      rw [sumTail] at h
      split at h
      next => cases h
      next op hop =>
        split at h
        next g hproduct =>
          obtain rfl := Except.error.inj h
          exact (product_error hproduct).of_suffix (List.suffix_cons t ts)
        next right mid hmid hproduct =>
          have hlt : mid.length < ts.length := hmid
          have hright : Derived .product ts right mid := product_sound ⟨hmid, hproduct⟩
          split at h
          next g htail =>
            obtain rfl := Except.error.inj h
            exact (sumTail_error htail).of_suffix (hright.suffix.trans (List.suffix_cons t ts))
          next => cases h
termination_by 6 * ts.length
decreasing_by
  all_goals (simp only [List.length_cons] at *; omega)

theorem product_error {ts : List Lexeme} {f : SyntaxError} (h : product stop ts = .error f) :
    BreaksOff stop ts f := by
  rw [product] at h
  split at h
  next g hunary =>
    obtain rfl := Except.error.inj h
    exact unary_error hunary
  next left mid hmid hunary =>
    have hlt : mid.length < ts.length := hmid
    have hleft : Derived .unary ts left mid := unary_sound ⟨hmid, hunary⟩
    split at h
    next g htail =>
      obtain rfl := Except.error.inj h
      exact (productTail_error htail).of_suffix hleft.suffix
    next => cases h
termination_by 6 * ts.length + 4
decreasing_by
  all_goals omega

theorem productTail_error {ts : List Lexeme} {left : Expr} {f : SyntaxError}
    (h : productTail stop left ts = .error f) : BreaksOff stop ts f := by
  match ts with
  | [] => rw [productTail] at h; cases h
  | t :: ts =>
      rw [productTail] at h
      split at h
      next => cases h
      next op hop =>
        split at h
        next g hunary =>
          obtain rfl := Except.error.inj h
          exact (unary_error hunary).of_suffix (List.suffix_cons t ts)
        next right mid hmid hunary =>
          have hlt : mid.length < ts.length := hmid
          have hright : Derived .unary ts right mid := unary_sound ⟨hmid, hunary⟩
          split at h
          next g htail =>
            obtain rfl := Except.error.inj h
            exact (productTail_error htail).of_suffix (hright.suffix.trans (List.suffix_cons t ts))
          next => cases h
termination_by 6 * ts.length
decreasing_by
  all_goals (simp only [List.length_cons] at *; omega)

theorem unary_error {ts : List Lexeme} {f : SyntaxError} (h : unary stop ts = .error f) :
    BreaksOff stop ts f := by
  match ts with
  | [] =>
      rw [unary] at h
      exact power_error h (by simp)
  | t :: ts =>
      rw [unary] at h
      split at h
      next =>
        split at h
        next g hunary =>
          obtain rfl := Except.error.inj h
          exact (unary_error hunary).of_suffix (List.suffix_cons t ts)
        next => cases h
      next hminus => exact power_error h (by simpa using hminus)
termination_by 6 * ts.length + 3
decreasing_by
  all_goals (simp only [List.length_cons] at *; omega)

theorem power_error {ts : List Lexeme} {f : SyntaxError} (h : power stop ts = .error f)
    (hminus : ∀ t ∈ ts.head?, t.token ≠ .minus) : BreaksOff stop ts f := by
  rw [power] at h
  split at h
  next g hprimary =>
    obtain rfl := Except.error.inj h
    exact primary_error hprimary hminus
  next => cases h
  next base t rest hmid hprimary =>
    have hlt : (t :: rest).length < ts.length := hmid
    have hbase : Derived .primary ts base (t :: rest) := primary_sound ⟨hmid, hprimary⟩
    split at h
    next =>
      split at h
      next g hunary =>
        obtain rfl := Except.error.inj h
        exact (unary_error hunary).of_suffix ((List.suffix_cons t rest).trans hbase.suffix)
      next => cases h
    next => cases h
termination_by 6 * ts.length + 2
decreasing_by
  all_goals (simp only [List.length_cons] at *; omega)

theorem primary_error {ts : List Lexeme} {f : SyntaxError} (h : primary stop ts = .error f)
    (hminus : ∀ t ∈ ts.head?, t.token ≠ .minus) : BreaksOff stop ts f := by
  match ts with
  | [] =>
      rw [primary] at h
      obtain rfl := Except.error.inj h
      exact (Misses.operand (by simp)).breaksOff stop
  | t :: ts =>
      rw [primary] at h
      split at h
      next => cases h
      next => cases h
      next =>
        split at h
        next g hsum =>
          obtain rfl := Except.error.inj h
          exact (sum_error hsum).of_suffix (List.suffix_cons t ts)
        next =>
          obtain rfl := Except.error.inj h
          exact ((Misses.closing (by simp [Phrase.EndsBefore]) (by simp)).breaksOff stop).of_suffix
            List.nil_suffix
        next inner t' after hmid hsum =>
          have hinner : Derived .sum ts inner (t' :: after) := sum_sound ⟨hmid, hsum⟩
          split at h
          next => cases h
          next hclosing =>
            obtain rfl := Except.error.inj h
            have hmisses := Misses.closing hinner.endsBefore (by simpa using hclosing)
            exact (hmisses.breaksOff stop).of_suffix (hinner.suffix.trans (List.suffix_cons t ts))
      next hnumber hname hopening =>
        obtain rfl := Except.error.inj h
        refine Misses.breaksOff (.operand fun u hu => ?_) stop
        obtain rfl : t = u := by simpa using hu
        cases htoken : t.token with
        | number x => exact absurd htoken (hnumber x)
        | name n => exact absurd htoken (hname n)
        | minus => exact absurd htoken (hminus t (by simp))
        | opening => exact absurd htoken hopening
        | _ => rfl
termination_by 6 * ts.length + 1
decreasing_by
  all_goals (simp only [List.length_cons] at *; omega)

end

theorem breaksOff_of_parse {t : Text} (h : parse t = .error f) : BreaksOff (Text.size t) (lex t) f := by
  unfold parse at h
  simp only at h
  split at h
  next g hsum =>
    obtain rfl := Except.error.inj h
    exact sum_error hsum
  next => cases h
  next e' t' rest hmid hsum =>
    obtain rfl := Except.error.inj h
    have hall : Derived .sum (lex t) e' (t' :: rest) := sum_sound ⟨hmid, hsum⟩
    exact ((Misses.operator hall.endsBefore).breaksOff (Text.size t)).of_suffix hall.suffix

/-! ## Bytes before a lexeme -/

theorem utf8Size_of_isNameChar {c : Char} (h : isNameChar c = true) : c.utf8Size = 1 := by
  rw [Char.utf8Size_eq_one_iff]
  rcases Bool.or_eq_true_iff.1 h with h | hunderscore
  · rcases Bool.or_eq_true_iff.1 h with h | hdigit
    · rcases Bool.or_eq_true_iff.1 h with hupper | hlower
      · exact UInt32.le_trans (of_decide_eq_true hupper).2 (by decide)
      · exact UInt32.le_trans (of_decide_eq_true (Bool.and_eq_true_iff.1 hlower).2) (by decide)
    · exact UInt32.le_trans (of_decide_eq_true (Bool.and_eq_true_iff.1 hdigit).2) (by decide)
  · obtain rfl := of_decide_eq_true hunderscore
    decide

theorem size_of_isNameChar {t : Text} (h : ∀ c ∈ t, isNameChar c = true) : Text.size t = t.length := by
  induction t with
  | nil => rfl
  | cons c t ih =>
      rw [Text.size_cons, utf8Size_of_isNameChar (h c (List.mem_cons_self ..)),
        ih fun d hd => h d (List.mem_cons_of_mem _ hd), List.length_cons, Nat.add_comm]

theorem size_takeWhile_isDigit (t : Text) :
    Text.size (t.takeWhile Char.isDigit) = (t.takeWhile Char.isDigit).length :=
  size_of_isNameChar fun c hc =>
    Reader.isNameChar_of_isDigit (Reader.eq_true_of_mem_takeWhile c hc)

/-- A numeral has one byte for each character. -/
theorem exists_numeral_append (t : Text) :
    ∃ z, t = z ++ (Decimal.splitNumeral t).2.2 ∧ Text.size z = z.length := by
  have hwhole : t = t.takeWhile Char.isDigit ++ t.dropWhile Char.isDigit :=
    (List.takeWhile_append_dropWhile).symm
  simp only [Decimal.splitNumeral]
  split
  next rest hrest =>
    by_cases hnone : rest.takeWhile Char.isDigit = []
    · rw [if_pos hnone]
      exact ⟨_, hwhole, size_takeWhile_isDigit t⟩
    · rw [if_neg hnone]
      refine ⟨t.takeWhile Char.isDigit ++ '.' :: rest.takeWhile Char.isDigit, ?_, ?_⟩
      · rw [List.append_assoc, List.cons_append, List.takeWhile_append_dropWhile, ← hrest]
        exact hwhole
      · rw [Text.size_append, Text.size_cons, size_takeWhile_isDigit, size_takeWhile_isDigit,
          List.length_append, List.length_cons, Nat.add_comm (Char.utf8Size '.')]
        rfl
  next => exact ⟨_, hwhole, size_takeWhile_isDigit t⟩

def Placed (o : Nat) (t : Text) (ts : List Lexeme) : Prop :=
  ∀ x rest, x :: rest <:+ ts → ∃ before after, t = before ++ after ∧ after ≠ [] ∧
    x.offset = o + Text.size before

theorem Placed.append {o : Nat} {z t : Text} {ts : List Lexeme} (h : Placed (o + Text.size z) t ts) :
    Placed o (z ++ t) ts := by
  intro x rest hx
  obtain ⟨before, after, rfl, hne, hoffset⟩ := h x rest hx
  exact ⟨z ++ before, after, by rw [List.append_assoc], hne, by
    rw [hoffset, Text.size_append, Nat.add_assoc]⟩

theorem Placed.cons {o : Nat} {t : Text} {token : Token} {ts : List Lexeme} (ht : t ≠ [])
    (h : Placed o t ts) : Placed o t (⟨token, o⟩ :: ts) := by
  intro x rest hx
  rcases List.suffix_cons_iff.1 hx with heq | hlater
  · obtain ⟨rfl, -⟩ := List.cons.inj heq
    exact ⟨[], t, rfl, ht, rfl⟩
  · exact h x rest hlater

theorem placed_lexFrom (o : Nat) (t : Text) : Placed o t (lexFrom o t) := by
  fun_induction lexFrom o t with
  | case1 o => exact fun x rest hx => absurd (List.suffix_nil.1 hx) (List.cons_ne_nil x rest)
  | case2 o c rest hspace ih => exact ih.append (z := [c])
  | case3 o c rest hspace hdigit whole fraction after hsplit ih =>
      obtain ⟨z, hz, hsize⟩ := exists_numeral_append rest
      replace hz : rest = z ++ after := by rw [hz, hsplit]
      have hbytes : 1 + rest.length - after.length = Text.size (c :: z) := by
        rw [Text.size_cons, utf8Size_of_isNameChar (Reader.isNameChar_of_isDigit hdigit), hsize, hz,
          List.length_append]
        omega
      rw [hbytes] at ih ⊢
      have hbehind := ih.append (z := c :: z)
      rw [List.cons_append, ← hz] at hbehind
      exact hbehind.cons (List.cons_ne_nil c rest)
  | case4 o c rest hspace hdigit hname more ih =>
      have hmore : ∀ d ∈ more, isNameChar d = true := Reader.eq_true_of_mem_takeWhile
      have hbytes : 1 + more.length = Text.size (c :: more) := by
        rw [Text.size_cons, utf8Size_of_isNameChar (Reader.isNameChar_of_isNameStart hname),
          size_of_isNameChar hmore]
      rw [hbytes] at ih ⊢
      have hbehind := ih.append (z := c :: more)
      rw [List.cons_append, List.takeWhile_append_dropWhile] at hbehind
      exact hbehind.cons (List.cons_ne_nil c rest)
  | case5 o c rest hspace hdigit hname ih =>
      exact (ih.append (z := [c])).cons (List.cons_ne_nil c rest)

/-- The error of a text that is no expression stands between two of its characters, and shows the end of
input exactly behind the last one. -/
theorem place_of_parse {t : Text} {f : SyntaxError} (h : parse t = .error f) :
    ∃ before after, t = before ++ after ∧ f.offset = Text.size before ∧ (f.found = none ↔ after = []) := by
  obtain ⟨expected, ts, rfl, hts, -⟩ := breaksOff_of_parse h
  cases ts with
  | nil => exact ⟨t, [], (List.append_nil t).symm, rfl, iff_of_true rfl rfl⟩
  | cons x rest =>
      obtain ⟨before, after, ht, hne, hoffset⟩ := placed_lexFrom 0 t x rest hts
      exact ⟨before, after, ht, hoffset.trans (Nat.zero_add _), iff_of_false nofun hne⟩

end Stencil.Arithmetic
