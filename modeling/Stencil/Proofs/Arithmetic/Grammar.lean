import Stencil.Arithmetic.Parser

/-! # The grammar of expressions

`Derives p ts e` says that the tokens `ts` form a phrase of the kind `p` whose expression is `e`. A reader
takes exactly the tokens of its phrase where no token behind them goes on with it (`isRead_of_derives`), and
whatever it takes is such a phrase (`sum_sound`). So all tokens of a text are read as an expression exactly
when they form a sum (`parse_iff_derives`), and they form only one (`Derives.unique`). -/
set_option autoImplicit false
namespace Stencil.Arithmetic

/-- The kinds of phrases; each one binds tighter than those before it. -/
inductive Phrase where
  | sum
  | product
  | unary
  | power
  | primary
deriving DecidableEq

inductive TermSign : Token → Operator → Prop
  | plus : TermSign .plus .add
  | minus : TermSign .minus .sub

inductive FactorSign : Token → Operator → Prop
  | star : FactorSign .star .mul
  | slash : FactorSign .slash .div

inductive Derives : Phrase → List Token → Expr → Prop
  | term {ts : List Token} {e : Expr} : Derives .product ts e → Derives .sum ts e
  | sum {ss ts : List Token} {t : Token} {op : Operator} {left right : Expr} : TermSign t op →
      Derives .sum ss left → Derives .product ts right →
      Derives .sum (ss ++ t :: ts) (.binary op left right)
  | factor {ts : List Token} {e : Expr} : Derives .unary ts e → Derives .product ts e
  | product {ss ts : List Token} {t : Token} {op : Operator} {left right : Expr} : FactorSign t op →
      Derives .product ss left → Derives .unary ts right →
      Derives .product (ss ++ t :: ts) (.binary op left right)
  | neg {ts : List Token} {e : Expr} : Derives .unary ts e → Derives .unary (.minus :: ts) (.neg e)
  | unsigned {ts : List Token} {e : Expr} : Derives .power ts e → Derives .unary ts e
  | base {ts : List Token} {e : Expr} : Derives .primary ts e → Derives .power ts e
  | power {ss ts : List Token} {base exponent : Expr} :
      Derives .primary ss base → Derives .unary ts exponent →
      Derives .power (ss ++ .caret :: ts) (.binary .pow base exponent)
  | number (x : Float) : Derives .primary [.number x] (.number x)
  | name (n : Text) : Derives .primary [.name n] (.name n)
  | parens {ts : List Token} {e : Expr} : Derives .sum ts e →
      Derives .primary (.opening :: ts ++ [.closing]) e

def Phrase.goesOn (p : Phrase) (t : Token) : Bool :=
  match p with
  | .primary => false
  | .power => t = .caret
  | .unary => t = .caret
  | .product => t = .caret || (multiplicative? t).isSome
  | .sum => t = .caret || (multiplicative? t).isSome || (additive? t).isSome

def Phrase.EndsBefore (p : Phrase) (ts : List Lexeme) : Prop := ∀ t ∈ ts.head?, p.goesOn t.token = false

theorem additive?_eq_some_iff {t : Token} {op : Operator} : additive? t = some op ↔ TermSign t op := by
  constructor
  · intro h
    unfold additive? at h
    split at h
    · obtain rfl := Option.some.inj h
      exact .plus
    · obtain rfl := Option.some.inj h
      exact .minus
    · cases h
  · rintro (_ | _) <;> rfl

theorem multiplicative?_eq_some_iff {t : Token} {op : Operator} :
    multiplicative? t = some op ↔ FactorSign t op := by
  constructor
  · intro h
    unfold multiplicative? at h
    split at h
    · obtain rfl := Option.some.inj h
      exact .star
    · obtain rfl := Option.some.inj h
      exact .slash
    · cases h
  · rintro (_ | _) <;> rfl

/-! ## What the readers give

A reader gives an expression and the lexemes that it leaves, with a proof that these are fewer. `Gives`
forgets the proof; what each reader gives is what the readers that it calls give. -/

def Gives {P : Expr × List Lexeme → Prop} (r : Except SyntaxError (Subtype P)) (e : Expr)
    (rest : List Lexeme) : Prop := ∃ h, r = .ok ⟨(e, rest), h⟩

theorem Gives.unique {P : Expr × List Lexeme → Prop} {r : Except SyntaxError (Subtype P)} {e e' : Expr}
    {rest rest' : List Lexeme} (h : Gives r e rest) (h' : Gives r e' rest') : e = e' ∧ rest = rest' := by
  obtain ⟨hp, hr⟩ := h
  obtain ⟨hp', hr'⟩ := h'
  have heq := Except.ok.inj (hr.symm.trans hr')
  exact Prod.mk.inj (congrArg Subtype.val heq)

variable {stop : Nat} {ts rest : List Lexeme} {t : Lexeme} {op : Operator} {left e : Expr}

theorem sum_gives : Gives (sum stop ts) e rest ↔ ∃ left mid,
    Gives (product stop ts) left mid ∧ Gives (sumTail stop left mid) e rest := by
  constructor
  · rintro ⟨hlt, h⟩
    rw [sum] at h
    split at h
    · cases h
    next left mid hmid hproduct =>
      split at h
      · cases h
      next q hle htail =>
        obtain rfl := congrArg Subtype.val (Except.ok.inj h)
        exact ⟨left, mid, ⟨hmid, hproduct⟩, hle, htail⟩
  · rintro ⟨left, mid, ⟨hmid, hproduct⟩, hle, htail⟩
    refine ⟨Nat.lt_of_le_of_lt hle hmid, ?_⟩
    rw [sum, hproduct]
    simp only [htail]

theorem sumTail_ends (h : ∀ t ∈ ts.head?, additive? t.token = none) : Gives (sumTail stop left ts) left ts := by
  refine ⟨Nat.le_refl _, ?_⟩
  cases ts with
  | nil => rw [sumTail]
  | cons t ts =>
      rw [sumTail]
      simp only [h t rfl]

theorem sumTail_gives (h : additive? t.token = some op) : Gives (sumTail stop left (t :: ts)) e rest ↔
    ∃ right mid, Gives (product stop ts) right mid ∧
      Gives (sumTail stop (.binary op left right) mid) e rest := by
  constructor
  · rintro ⟨hlt, h'⟩
    rw [sumTail] at h'
    simp only [h] at h'
    split at h'
    · cases h'
    next right mid hmid hproduct =>
      split at h'
      · cases h'
      next q hle htail =>
        obtain rfl := congrArg Subtype.val (Except.ok.inj h')
        exact ⟨right, mid, ⟨hmid, hproduct⟩, hle, htail⟩
  · rintro ⟨right, mid, ⟨hmid, hproduct⟩, hle, htail⟩
    refine ⟨Nat.le_of_lt (Nat.lt_succ_of_lt (Nat.lt_of_le_of_lt hle hmid)), ?_⟩
    rw [sumTail]
    simp only [h, hproduct, htail]

theorem product_gives : Gives (product stop ts) e rest ↔ ∃ left mid,
    Gives (unary stop ts) left mid ∧ Gives (productTail stop left mid) e rest := by
  constructor
  · rintro ⟨hlt, h⟩
    rw [product] at h
    split at h
    · cases h
    next left mid hmid hunary =>
      split at h
      · cases h
      next q hle htail =>
        obtain rfl := congrArg Subtype.val (Except.ok.inj h)
        exact ⟨left, mid, ⟨hmid, hunary⟩, hle, htail⟩
  · rintro ⟨left, mid, ⟨hmid, hunary⟩, hle, htail⟩
    refine ⟨Nat.lt_of_le_of_lt hle hmid, ?_⟩
    rw [product, hunary]
    simp only [htail]

theorem productTail_ends (h : ∀ t ∈ ts.head?, multiplicative? t.token = none) :
    Gives (productTail stop left ts) left ts := by
  refine ⟨Nat.le_refl _, ?_⟩
  cases ts with
  | nil => rw [productTail]
  | cons t ts =>
      rw [productTail]
      simp only [h t rfl]

theorem productTail_gives (h : multiplicative? t.token = some op) :
    Gives (productTail stop left (t :: ts)) e rest ↔ ∃ right mid, Gives (unary stop ts) right mid ∧
      Gives (productTail stop (.binary op left right) mid) e rest := by
  constructor
  · rintro ⟨hlt, h'⟩
    rw [productTail] at h'
    simp only [h] at h'
    split at h'
    · cases h'
    next right mid hmid hunary =>
      split at h'
      · cases h'
      next q hle htail =>
        obtain rfl := congrArg Subtype.val (Except.ok.inj h')
        exact ⟨right, mid, ⟨hmid, hunary⟩, hle, htail⟩
  · rintro ⟨right, mid, ⟨hmid, hunary⟩, hle, htail⟩
    refine ⟨Nat.le_of_lt (Nat.lt_succ_of_lt (Nat.lt_of_le_of_lt hle hmid)), ?_⟩
    rw [productTail]
    simp only [h, hunary, htail]

theorem unary_gives_neg (h : t.token = .minus) : Gives (unary stop (t :: ts)) e rest ↔
    ∃ e', e = .neg e' ∧ Gives (unary stop ts) e' rest := by
  constructor
  · rintro ⟨hlt, h'⟩
    rw [unary, if_pos h] at h'
    split at h'
    · cases h'
    next e' after hlt' hunary =>
      obtain ⟨rfl, rfl⟩ := Prod.mk.inj (congrArg Subtype.val (Except.ok.inj h'))
      exact ⟨e', rfl, hlt', hunary⟩
  · rintro ⟨e', rfl, hlt, hunary⟩
    refine ⟨Nat.lt_succ_of_lt hlt, ?_⟩
    rw [unary, if_pos h, hunary]

theorem unary_gives (h : ∀ t ∈ ts.head?, t.token ≠ .minus) :
    Gives (unary stop ts) e rest ↔ Gives (power stop ts) e rest := by
  cases ts with
  | nil => rw [unary]
  | cons t ts => rw [unary, if_neg (h t rfl)]

theorem power_gives : Gives (power stop ts) e rest ↔ ∃ base mid, Gives (primary stop ts) base mid ∧
    (((∀ t ∈ mid.head?, t.token ≠ .caret) ∧ e = base ∧ rest = mid) ∨
      ∃ t after exponent, mid = t :: after ∧ t.token = .caret ∧ Gives (unary stop after) exponent rest ∧
        e = .binary .pow base exponent) := by
  constructor
  · rintro ⟨hlt, h⟩
    rw [power] at h
    split at h
    · cases h
    next base hmid hprimary =>
      obtain ⟨rfl, rfl⟩ := Prod.mk.inj (congrArg Subtype.val (Except.ok.inj h))
      exact ⟨base, [], ⟨hmid, hprimary⟩, .inl ⟨by simp, rfl, rfl⟩⟩
    next base t after hmid hprimary =>
      refine ⟨base, t :: after, ⟨hmid, hprimary⟩, ?_⟩
      by_cases hcaret : t.token = .caret
      · rw [if_pos hcaret] at h
        split at h
        · cases h
        next exponent last hlt' hunary =>
          obtain ⟨rfl, rfl⟩ := Prod.mk.inj (congrArg Subtype.val (Except.ok.inj h))
          exact .inr ⟨t, after, exponent, rfl, hcaret, ⟨hlt', hunary⟩, rfl⟩
      · rw [if_neg hcaret] at h
        obtain ⟨rfl, rfl⟩ := Prod.mk.inj (congrArg Subtype.val (Except.ok.inj h))
        exact .inl ⟨by simpa using hcaret, rfl, rfl⟩
  · rintro ⟨base, mid, ⟨hmid, hprimary⟩, ⟨hends, rfl, rfl⟩ | ⟨t, after, exponent, rfl, hcaret, ⟨hlt, hunary⟩, rfl⟩⟩
    · refine ⟨hmid, ?_⟩
      cases rest with
      | nil => rw [power, hprimary]
      | cons t after =>
          rw [power, hprimary]
          simp only [if_neg (hends t rfl)]
    · refine ⟨Nat.lt_trans hlt (Nat.lt_of_succ_lt hmid), ?_⟩
      rw [power, hprimary]
      simp only [if_pos hcaret, hunary]

theorem primary_gives : Gives (primary stop ts) e rest ↔ ∃ t after, ts = t :: after ∧
    ((∃ x, t.token = .number x ∧ e = .number x ∧ rest = after) ∨
      (∃ n, t.token = .name n ∧ e = .name n ∧ rest = after) ∨
      (t.token = .opening ∧ ∃ t', t'.token = .closing ∧ Gives (sum stop after) e (t' :: rest))) := by
  constructor
  · rintro ⟨hlt, h⟩
    cases ts with
    | nil =>
        rw [primary] at h
        cases h
    | cons t after =>
        refine ⟨t, after, rfl, ?_⟩
        rw [primary] at h
        split at h
        next x hnumber =>
          obtain ⟨rfl, rfl⟩ := Prod.mk.inj (congrArg Subtype.val (Except.ok.inj h))
          exact .inl ⟨x, hnumber, rfl, rfl⟩
        next n hname =>
          obtain ⟨rfl, rfl⟩ := Prod.mk.inj (congrArg Subtype.val (Except.ok.inj h))
          exact .inr (.inl ⟨n, hname, rfl, rfl⟩)
        next hopening =>
          split at h
          · cases h
          · cases h
          next e' t' last hlt' hsum =>
            by_cases hclosing : t'.token = .closing
            · rw [if_pos hclosing] at h
              obtain ⟨rfl, rfl⟩ := Prod.mk.inj (congrArg Subtype.val (Except.ok.inj h))
              exact .inr (.inr ⟨hopening, t', hclosing, hlt', hsum⟩)
            · rw [if_neg hclosing] at h
              cases h
        · cases h
  · rintro ⟨t, after, rfl, ⟨x, hnumber, rfl, rfl⟩ | ⟨n, hname, rfl, rfl⟩ | ⟨hopening, t', hclosing, hlt, hsum⟩⟩
    · refine ⟨Nat.lt_succ_self _, ?_⟩
      rw [primary]
      simp only [hnumber]
    · refine ⟨Nat.lt_succ_self _, ?_⟩
      rw [primary]
      simp only [hname]
    · refine ⟨Nat.lt_succ_of_lt (Nat.lt_of_succ_lt hlt), ?_⟩
      rw [primary]
      simp only [hopening, hsum, if_pos hclosing]

/-! ## What is read is a phrase -/

/-- The lexemes before `rest` form the phrase, and `rest` does not go on with it. -/
def Derived (p : Phrase) (ts : List Lexeme) (e : Expr) (rest : List Lexeme) : Prop :=
  ∃ used, ts = used ++ rest ∧ Derives p (used.map Lexeme.token) e ∧ p.EndsBefore rest

theorem Derived.rule {p q : Phrase} (h : Derived p ts e rest)
    (hrule : ∀ {us : List Token}, Derives p us e → Derives q us e)
    (hends : p.EndsBefore rest → q.EndsBefore rest) : Derived q ts e rest := by
  obtain ⟨used, rfl, hderives, hbefore⟩ := h
  exact ⟨used, rfl, hrule hderives, hends hbefore⟩

mutual

theorem sum_sound {ts rest : List Lexeme} {e : Expr} (h : Gives (sum stop ts) e rest) :
    Derived .sum ts e rest := by
  obtain ⟨left, mid, hproduct, htail⟩ := sum_gives.1 h
  have hmid : mid.length < ts.length := hproduct.1
  obtain ⟨used, rfl, hderives, hends⟩ := product_sound hproduct
  obtain ⟨more, rfl, hderives', hends'⟩ := sumTail_sound htail hends (.term hderives)
  exact ⟨used ++ more, by rw [List.append_assoc], by rwa [List.map_append], hends'⟩
termination_by 6 * ts.length + 5
decreasing_by
  all_goals omega

theorem sumTail_sound {ts rest : List Lexeme} {left e : Expr} {ss : List Token}
    (h : Gives (sumTail stop left ts) e rest) (hends : Phrase.product.EndsBefore ts)
    (hleft : Derives .sum ss left) : ∃ used, ts = used ++ rest ∧
      Derives .sum (ss ++ used.map Lexeme.token) e ∧ Phrase.sum.EndsBefore rest := by
  match ts with
  | [] =>
      obtain ⟨rfl, rfl⟩ := h.unique (sumTail_ends (by simp))
      exact ⟨[], rfl, by simpa using hleft, by simp [Phrase.EndsBefore]⟩
  | t :: ts =>
      cases hop : additive? t.token with
      | none =>
          obtain ⟨rfl, rfl⟩ := h.unique (sumTail_ends (by simpa using hop))
          refine ⟨[], rfl, by simpa using hleft, ?_⟩
          simpa [Phrase.EndsBefore, Phrase.goesOn, hop] using hends
      | some op =>
          obtain ⟨right, mid, hproduct, htail⟩ := (sumTail_gives hop).1 h
          have hmid : mid.length < ts.length := hproduct.1
          obtain ⟨used, rfl, hright, hends'⟩ := product_sound hproduct
          obtain ⟨more, rfl, hderives, hlast⟩ :=
            sumTail_sound htail hends' (.sum (additive?_eq_some_iff.1 hop) hleft hright)
          exact ⟨t :: used ++ more, by simp, by simpa using hderives, hlast⟩
termination_by 6 * ts.length
decreasing_by
  all_goals (simp only [List.length_cons] at *; omega)

theorem product_sound {ts rest : List Lexeme} {e : Expr} (h : Gives (product stop ts) e rest) :
    Derived .product ts e rest := by
  obtain ⟨left, mid, hunary, htail⟩ := product_gives.1 h
  have hmid : mid.length < ts.length := hunary.1
  obtain ⟨used, rfl, hderives, hends⟩ := unary_sound hunary
  obtain ⟨more, rfl, hderives', hends'⟩ := productTail_sound htail hends (.factor hderives)
  exact ⟨used ++ more, by rw [List.append_assoc], by rwa [List.map_append], hends'⟩
termination_by 6 * ts.length + 4
decreasing_by
  all_goals omega

theorem productTail_sound {ts rest : List Lexeme} {left e : Expr} {ss : List Token}
    (h : Gives (productTail stop left ts) e rest) (hends : Phrase.unary.EndsBefore ts)
    (hleft : Derives .product ss left) : ∃ used, ts = used ++ rest ∧
      Derives .product (ss ++ used.map Lexeme.token) e ∧ Phrase.product.EndsBefore rest := by
  match ts with
  | [] =>
      obtain ⟨rfl, rfl⟩ := h.unique (productTail_ends (by simp))
      exact ⟨[], rfl, by simpa using hleft, by simp [Phrase.EndsBefore]⟩
  | t :: ts =>
      cases hop : multiplicative? t.token with
      | none =>
          obtain ⟨rfl, rfl⟩ := h.unique (productTail_ends (by simpa using hop))
          refine ⟨[], rfl, by simpa using hleft, ?_⟩
          simpa [Phrase.EndsBefore, Phrase.goesOn, hop] using hends
      | some op =>
          obtain ⟨right, mid, hunary, htail⟩ := (productTail_gives hop).1 h
          have hmid : mid.length < ts.length := hunary.1
          obtain ⟨used, rfl, hright, hends'⟩ := unary_sound hunary
          obtain ⟨more, rfl, hderives, hlast⟩ :=
            productTail_sound htail hends' (.product (multiplicative?_eq_some_iff.1 hop) hleft hright)
          exact ⟨t :: used ++ more, by simp, by simpa using hderives, hlast⟩
termination_by 6 * ts.length
decreasing_by
  all_goals (simp only [List.length_cons] at *; omega)

theorem unary_sound {ts rest : List Lexeme} {e : Expr} (h : Gives (unary stop ts) e rest) :
    Derived .unary ts e rest := by
  by_cases hminus : ∃ t us, ts = t :: us ∧ t.token = .minus
  · obtain ⟨t, us, hts, hminus⟩ := hminus
    have hshort : us.length < ts.length := by simp [hts]
    rw [hts] at h ⊢
    obtain ⟨e', rfl, hunary⟩ := (unary_gives_neg hminus).1 h
    obtain ⟨used, rfl, hderives, hends⟩ := unary_sound hunary
    exact ⟨t :: used, rfl, by simpa [hminus] using Derives.neg hderives, hends⟩
  · have hne : ∀ t ∈ ts.head?, t.token ≠ .minus := by
      intro t ht heq
      obtain ⟨us, rfl⟩ := List.head?_eq_some_iff.1 ht
      exact hminus ⟨t, us, rfl, heq⟩
    exact (power_sound ((unary_gives hne).1 h)).rule .unsigned id
termination_by 6 * ts.length + 3
decreasing_by
  all_goals omega

theorem power_sound {ts rest : List Lexeme} {e : Expr} (h : Gives (power stop ts) e rest) :
    Derived .power ts e rest := by
  obtain ⟨base, mid, hprimary, hmore⟩ := power_gives.1 h
  have hmid : mid.length < ts.length := hprimary.1
  obtain ⟨used, hused, hbase, -⟩ := primary_sound hprimary
  rcases hmore with ⟨hends, rfl, rfl⟩ | ⟨t, after, exponent, rfl, hcaret, hunary, rfl⟩
  · refine ⟨used, hused, .base hbase, fun t ht => ?_⟩
    simpa [Phrase.goesOn] using hends t ht
  · have hafter : after.length + 1 < ts.length := hmid
    obtain ⟨more, rfl, hexponent, hends⟩ := unary_sound hunary
    exact ⟨used ++ t :: more, by simp [hused], by simpa [hcaret] using Derives.power hbase hexponent, hends⟩
termination_by 6 * ts.length + 2
decreasing_by
  all_goals omega

theorem primary_sound {ts rest : List Lexeme} {e : Expr} (h : Gives (primary stop ts) e rest) :
    Derived .primary ts e rest := by
  have hends : Phrase.primary.EndsBefore rest := fun _ _ => rfl
  obtain ⟨t, after, hts, hcases⟩ := primary_gives.1 h
  have hshort : after.length < ts.length := by simp [hts]
  rw [hts]
  rcases hcases with ⟨x, hnumber, rfl, rfl⟩ | ⟨n, hname, rfl, rfl⟩ | ⟨hopening, t', hclosing, hsum⟩
  · exact ⟨[t], rfl, by simpa [hnumber] using Derives.number x, hends⟩
  · exact ⟨[t], rfl, by simpa [hname] using Derives.name n, hends⟩
  · obtain ⟨used, rfl, hderives, -⟩ := sum_sound hsum
    refine ⟨t :: used ++ [t'], by simp, ?_, hends⟩
    simpa [hopening, hclosing] using Derives.parens hderives
termination_by 6 * ts.length + 1
decreasing_by
  all_goals omega

end

/-! ## Every phrase is read -/

/-- The phrase is read before all lexemes that do not go on with it. A phrase that may be the front of a longer
one of its kind is the front of what the rest of the longer one is read as. -/
def Phrase.IsRead (p : Phrase) (ts : List Token) (e : Expr) : Prop :=
  ∀ (stop : Nat) (ls rest : List Lexeme), ls.map Lexeme.token = ts →
    match p with
    | .sum => ∀ e' last, Phrase.product.EndsBefore rest → Gives (sumTail stop e rest) e' last →
        Gives (Arithmetic.sum stop (ls ++ rest)) e' last
    | .product => ∀ e' last, Phrase.unary.EndsBefore rest → Gives (productTail stop e rest) e' last →
        Gives (Arithmetic.product stop (ls ++ rest)) e' last
    | .unary => Phrase.unary.EndsBefore rest → Gives (Arithmetic.unary stop (ls ++ rest)) e rest
    | .power => Phrase.power.EndsBefore rest → Gives (Arithmetic.power stop (ls ++ rest)) e rest
    | .primary => Gives (Arithmetic.primary stop (ls ++ rest)) e rest

theorem Phrase.EndsBefore.product (h : Phrase.sum.EndsBefore ts) : Phrase.product.EndsBefore ts := by
  intro t ht
  have hsum := h t ht
  simp only [goesOn, Bool.or_eq_false_iff] at hsum ⊢
  exact hsum.1

theorem Phrase.EndsBefore.unary (h : Phrase.product.EndsBefore ts) : Phrase.unary.EndsBefore ts := by
  intro t ht
  have hproduct := h t ht
  simp only [goesOn, Bool.or_eq_false_iff] at hproduct ⊢
  exact hproduct.1

theorem Phrase.IsRead.sum {ls : List Lexeme} (h : Phrase.sum.IsRead (ls.map Lexeme.token) e)
    (hends : Phrase.sum.EndsBefore rest) : Gives (Arithmetic.sum stop (ls ++ rest)) e rest := by
  refine h stop ls rest rfl e rest hends.product (sumTail_ends fun t ht => ?_)
  have hsum := hends t ht
  simp only [goesOn, Bool.or_eq_false_iff] at hsum
  simpa using hsum.2

theorem Phrase.IsRead.product {ls : List Lexeme} (h : Phrase.product.IsRead (ls.map Lexeme.token) e)
    (hends : Phrase.product.EndsBefore rest) : Gives (Arithmetic.product stop (ls ++ rest)) e rest := by
  refine h stop ls rest rfl e rest hends.unary (productTail_ends fun t ht => ?_)
  have hproduct := hends t ht
  simp only [goesOn, Bool.or_eq_false_iff] at hproduct
  simpa using hproduct.2

theorem TermSign.goesOn {t : Token} (h : TermSign t op) : Phrase.product.goesOn t = false := by
  cases h <;> rfl

theorem FactorSign.goesOn {t : Token} (h : FactorSign t op) : Phrase.unary.goesOn t = false := by
  cases h <;> rfl

/-- No power begins with a minus sign. -/
theorem exists_of_derives_primary {ts : List Token} {e : Expr} (h : Derives .primary ts e) :
    ∃ t us, ts = t :: us ∧ t ≠ .minus := by
  cases h with
  | number x => exact ⟨.number x, [], rfl, nofun⟩
  | name n => exact ⟨.name n, [], rfl, nofun⟩
  | parens _ => exact ⟨.opening, _, rfl, nofun⟩

theorem exists_of_derives_power {ts : List Token} {e : Expr} (h : Derives .power ts e) :
    ∃ t us, ts = t :: us ∧ t ≠ .minus := by
  cases h with
  | base h => exact exists_of_derives_primary h
  | power h _ =>
      obtain ⟨t, us, rfl, ht⟩ := exists_of_derives_primary h
      exact ⟨t, _, rfl, ht⟩

theorem isRead_of_derives {p : Phrase} {ts : List Token} {e : Expr} (h : Derives p ts e) :
    p.IsRead ts e := by
  induction h with
  | term _ ih =>
      rintro stop ls rest rfl e' last hends htail
      exact sum_gives.2 ⟨_, _, ih.product hends, htail⟩
  | @sum ss ts t op left right hop _ _ ihleft ihright =>
      intro stop ls rest hls e' last hends htail
      obtain ⟨us, vs, rfl, hus, hvs⟩ := List.map_eq_append_iff.1 hls
      obtain ⟨l, vs, rfl, rfl, rfl⟩ := List.map_eq_cons_iff.1 hvs
      rw [List.append_assoc]
      refine ihleft stop us _ hus e' last ?_ ?_
      · simpa [Phrase.EndsBefore] using hop.goesOn
      · exact (sumTail_gives (additive?_eq_some_iff.2 hop)).2 ⟨right, rest, ihright.product hends, htail⟩
  | factor _ ih =>
      rintro stop ls rest rfl e' last hends htail
      exact product_gives.2 ⟨_, _, ih stop ls rest rfl hends, htail⟩
  | @product ss ts t op left right hop _ _ ihleft ihright =>
      intro stop ls rest hls e' last hends htail
      obtain ⟨us, vs, rfl, hus, hvs⟩ := List.map_eq_append_iff.1 hls
      obtain ⟨l, vs, rfl, rfl, rfl⟩ := List.map_eq_cons_iff.1 hvs
      rw [List.append_assoc]
      refine ihleft stop us _ hus e' last ?_ ?_
      · simpa [Phrase.EndsBefore] using hop.goesOn
      · exact (productTail_gives (multiplicative?_eq_some_iff.2 hop)).2
          ⟨right, rest, ihright stop vs rest rfl hends, htail⟩
  | neg _ ih =>
      intro stop ls rest hls hends
      obtain ⟨l, us, rfl, hminus, rfl⟩ := List.map_eq_cons_iff.1 hls
      exact (unary_gives_neg hminus).2 ⟨_, rfl, ih stop us rest rfl hends⟩
  | unsigned hpower ih =>
      rintro stop ls rest rfl hends
      obtain ⟨t, us, hls, ht⟩ := exists_of_derives_power hpower
      obtain ⟨l, ls, rfl, rfl, -⟩ := List.map_eq_cons_iff.1 hls
      exact (unary_gives (by simpa using ht)).2 (ih stop (l :: ls) rest rfl hends)
  | base _ ih =>
      rintro stop ls rest rfl hends
      refine power_gives.2 ⟨_, rest, ih stop ls rest rfl, .inl ⟨fun t ht => ?_, rfl, rfl⟩⟩
      simpa [Phrase.goesOn] using hends t ht
  | power _ _ ihbase ihexponent =>
      intro stop ls rest hls hends
      obtain ⟨us, vs, rfl, hus, hvs⟩ := List.map_eq_append_iff.1 hls
      obtain ⟨l, vs, rfl, hcaret, rfl⟩ := List.map_eq_cons_iff.1 hvs
      rw [List.append_assoc]
      exact power_gives.2 ⟨_, _, ihbase stop us _ hus,
        .inr ⟨l, vs ++ rest, _, rfl, hcaret, ihexponent stop vs rest rfl hends, rfl⟩⟩
  | number x =>
      intro stop ls rest hls
      obtain ⟨l, us, rfl, hnumber, hnil⟩ := List.map_eq_cons_iff.1 hls
      obtain rfl := List.map_eq_nil_iff.1 hnil
      exact primary_gives.2 ⟨l, rest, rfl, .inl ⟨x, hnumber, rfl, rfl⟩⟩
  | name n =>
      intro stop ls rest hls
      obtain ⟨l, us, rfl, hname, hnil⟩ := List.map_eq_cons_iff.1 hls
      obtain rfl := List.map_eq_nil_iff.1 hnil
      exact primary_gives.2 ⟨l, rest, rfl, .inr (.inl ⟨n, hname, rfl, rfl⟩)⟩
  | parens _ ih =>
      intro stop ls rest hls
      obtain ⟨l, us, rfl, hopening, hus⟩ := List.map_eq_cons_iff.1 hls
      obtain ⟨us, vs, rfl, rfl, hvs⟩ := List.map_eq_append_iff.1 hus
      obtain ⟨l', ws, rfl, hclosing, hnil⟩ := List.map_eq_cons_iff.1 hvs
      obtain rfl := List.map_eq_nil_iff.1 hnil
      refine primary_gives.2 ⟨l, us ++ l' :: rest, by simp, .inr (.inr ⟨hopening, l', hclosing, ?_⟩)⟩
      exact ih.sum (by simp [Phrase.EndsBefore, Phrase.goesOn, hclosing, additive?, multiplicative?])

/-! ## The grammar of the parser -/

/-- All tokens are read as an expression exactly when they form a sum. -/
theorem sum_gives_nil_iff (stop : Nat) : Gives (sum stop ts) e [] ↔ Derives .sum (ts.map Lexeme.token) e := by
  constructor
  · intro h
    obtain ⟨used, rfl, hderives, -⟩ := sum_sound h
    rwa [List.append_nil]
  · intro h
    have hgives : Gives (sum stop (ts ++ [])) e [] :=
      (isRead_of_derives h).sum (by simp [Phrase.EndsBefore])
    rwa [List.append_nil] at hgives

theorem parse_iff_derives {t : Text} {e : Expr} :
    parse t = .ok e ↔ Derives .sum ((lex t).map Lexeme.token) e := by
  rw [← sum_gives_nil_iff (Text.size t)]
  unfold parse
  constructor
  · intro h
    simp only at h
    split at h
    · cases h
    next e' hlt hsum =>
      obtain rfl := Except.ok.inj h
      exact ⟨hlt, hsum⟩
    · cases h
  · rintro ⟨hlt, hsum⟩
    simp only [hsum]

/-- Tokens form one sum at most. -/
theorem Derives.unique {us : List Token} {e e' : Expr} (h : Derives .sum us e)
    (h' : Derives .sum us e') : e = e' := by
  have hmap : (us.map fun t => Lexeme.mk t 0).map Lexeme.token = us := by simp [Function.comp_def]
  rw [← hmap, ← sum_gives_nil_iff 0] at h h'
  exact (h.unique h').1

/-- A character that begins no token occurs in no phrase. -/
theorem Derives.ne_other {p : Phrase} {ts : List Token} {e : Expr} (h : Derives p ts e) (c : Char) :
    .other c ∉ ts := by
  induction h with
  | term _ ih => exact ih
  | sum hop _ _ ihleft ihright => cases hop <;> simp [ihleft, ihright]
  | factor _ ih => exact ih
  | product hop _ _ ihleft ihright => cases hop <;> simp [ihleft, ihright]
  | neg _ ih => simp [ih]
  | unsigned _ ih => exact ih
  | base _ ih => exact ih
  | power _ _ ihbase ihexponent => simp [ihbase, ihexponent]
  | number x => simp
  | name n => simp
  | parens _ ih => simp [ih]

end Stencil.Arithmetic
