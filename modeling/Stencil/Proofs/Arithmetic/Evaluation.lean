import Stencil.Arithmetic.Expr

/-! # The value of an expression

Given numbers for names, `HasValue` is the value of an expression and `DividesByZero` says that one of its
divisors has the value zero. Where each name has a number, evaluation gives the one or reports the other
(`eval_cases`), and the two exclude each other (`DividesByZero.not_hasValue`). -/
set_option autoImplicit false
namespace Stencil.Arithmetic.Expr

/-- The value of an expression whose names have numbers. The operations are those of doubles; a quotient by
a zero, of either sign, has no value. -/
inductive HasValue (numbers : Text → Float → Prop) : Expr → Float → Prop
  | number (x : Float) : HasValue numbers (.number x) x
  | name {n : Text} {x : Float} : numbers n x → HasValue numbers (.name n) x
  | neg {e : Expr} {x : Float} : HasValue numbers e x → HasValue numbers (.neg e) (-x)
  | add {l r : Expr} {x y : Float} : HasValue numbers l x → HasValue numbers r y →
      HasValue numbers (.binary .add l r) (x + y)
  | sub {l r : Expr} {x y : Float} : HasValue numbers l x → HasValue numbers r y →
      HasValue numbers (.binary .sub l r) (x - y)
  | mul {l r : Expr} {x y : Float} : HasValue numbers l x → HasValue numbers r y →
      HasValue numbers (.binary .mul l r) (x * y)
  | div {l r : Expr} {x y : Float} : HasValue numbers l x → HasValue numbers r y →
      (y == 0.0) = false → HasValue numbers (.binary .div l r) (x / y)
  | pow {l r : Expr} {x y : Float} : HasValue numbers l x → HasValue numbers r y →
      HasValue numbers (.binary .pow l r) (Float.pow x y)

inductive DividesByZero (numbers : Text → Float → Prop) : Expr → Prop
  | here {l r : Expr} {y : Float} : HasValue numbers r y → (y == 0.0) = true →
      DividesByZero numbers (.binary .div l r)
  | neg {e : Expr} : DividesByZero numbers e → DividesByZero numbers (.neg e)
  | left {op : Operator} {l r : Expr} : DividesByZero numbers l →
      DividesByZero numbers (.binary op l r)
  | right {op : Operator} {l r : Expr} : DividesByZero numbers r →
      DividesByZero numbers (.binary op l r)

/-! ## Names -/

theorem mem_addNames {n : Text} (e : Expr) : ∀ {seen : List Text},
    n ∈ e.addNames seen ↔ n ∈ seen ∨ n ∈ e.names := by
  induction e with
  | number x => intro seen; simp [addNames, names]
  | name t =>
      intro seen
      by_cases ht : t ∈ seen
      · simp only [addNames, names, if_pos ht, List.not_mem_nil, if_false, List.nil_append,
          List.mem_singleton]
        refine ⟨.inl, fun h => h.elim id ?_⟩
        rintro rfl
        exact ht
      · simp [addNames, names, ht]
  | neg e ih => intro seen; exact ih
  | binary op l r ihl ihr =>
      intro seen
      have hboth : n ∈ (Expr.binary op l r).names ↔ n ∈ l.names ∨ n ∈ r.names := ihr
      rw [hboth, ← or_assoc, ← ihl]
      exact ihr

@[simp] theorem mem_names_name {n t : Text} : n ∈ (Expr.name t).names ↔ n = t := by
  simp [names, addNames]

theorem mem_names_binary {n : Text} {op : Operator} {l r : Expr} :
    n ∈ (Expr.binary op l r).names ↔ n ∈ l.names ∨ n ∈ r.names := mem_addNames r

/-! ## Evaluation -/

section
variable {numbers : Text → Float → Prop} {scope : Scope}

theorem eval_binary (scope : Scope) (op : Operator) (l r : Expr) :
    (Expr.binary op l r).eval scope =
      (l.eval scope).bind fun x => (r.eval scope).bind fun y => op.apply x y := rfl

theorem eval_of_hasValue (hscope : ∀ n x, numbers n x → scope n = some (.number x)) {e : Expr} {x : Float}
    (h : HasValue numbers e x) : e.eval scope = .ok x := by
  induction h with
  | number x => rfl
  | @name n x hx => simp only [eval, hscope n x hx, Option.getD_some, Value.asNumber?]
  | neg _ ih => rw [eval, ih]; rfl
  | add _ _ ihl ihr => rw [eval_binary, ihl, ihr]; rfl
  | sub _ _ ihl ihr => rw [eval_binary, ihl, ihr]; rfl
  | mul _ _ ihl ihr => rw [eval_binary, ihl, ihr]; rfl
  | div _ _ hy ihl ihr =>
      rw [eval_binary, ihl, ihr]
      show Operator.apply .div _ _ = _
      rw [Operator.apply, if_neg (by simp [hy])]
  | pow _ _ ihl ihr => rw [eval_binary, ihl, ihr]; rfl

/-- An expression that divides by zero has no value. -/
theorem DividesByZero.not_hasValue (hscope : ∀ n x, numbers n x → scope n = some (.number x)) {e : Expr}
    (h : DividesByZero numbers e) : ∀ x, ¬ HasValue numbers e x := by
  induction h with
  | here hr hzero =>
      intro x hx
      cases hx with
      | div _ hr' hne =>
          -- the divisor has one value
          have hsame := Except.ok.inj ((eval_of_hasValue hscope hr).symm.trans (eval_of_hasValue hscope hr'))
          rw [hsame, hne] at hzero
          cases hzero
  | neg _ ih =>
      intro x hx
      cases hx with
      | neg he => exact ih _ he
  | left _ ih => intro x hx; cases hx <;> exact ih _ ‹_›
  | right _ ih => intro x hx; cases hx <;> exact ih _ ‹_›

theorem apply_cases {l r : Expr} {x y : Float} (op : Operator) (hl : HasValue numbers l x)
    (hr : HasValue numbers r y) :
    (∃ z, HasValue numbers (.binary op l r) z ∧ op.apply x y = .ok z) ∨
      DividesByZero numbers (.binary op l r) ∧ op.apply x y = .error .divisionByZero := by
  cases op with
  | add => exact .inl ⟨_, .add hl hr, rfl⟩
  | sub => exact .inl ⟨_, .sub hl hr, rfl⟩
  | mul => exact .inl ⟨_, .mul hl hr, rfl⟩
  | pow => exact .inl ⟨_, .pow hl hr, rfl⟩
  | div =>
      cases hy : y == 0.0 with
      | false => exact .inl ⟨_, .div hl hr hy, by rw [Operator.apply, if_neg (by simp [hy])]⟩
      | true => exact .inr ⟨.here hr hy, by rw [Operator.apply, if_pos hy]⟩

/-- An expression whose names have numbers is evaluated to its value, or a division by zero is reported. -/
theorem eval_cases (hscope : ∀ n x, numbers n x → scope n = some (.number x)) {e : Expr}
    (h : ∀ n ∈ e.names, ∃ x, numbers n x) :
    (∃ x, HasValue numbers e x ∧ e.eval scope = .ok x) ∨
      DividesByZero numbers e ∧ e.eval scope = .error .divisionByZero := by
  induction e with
  | number x => exact .inl ⟨x, .number x, rfl⟩
  | name t =>
      obtain ⟨x, hx⟩ := h t (by simp)
      exact .inl ⟨x, .name hx, eval_of_hasValue hscope (.name hx)⟩
  | neg e ih =>
      rcases ih h with ⟨x, hx, heval⟩ | ⟨hzero, heval⟩
      · exact .inl ⟨-x, .neg hx, by rw [eval, heval]; rfl⟩
      · exact .inr ⟨.neg hzero, by rw [eval, heval]; rfl⟩
  | binary op l r ihl ihr =>
      rw [eval_binary]
      rcases ihl fun n hn => h n (mem_names_binary.2 (.inl hn)) with ⟨x, hx, hl⟩ | ⟨hzero, hl⟩
      · rcases ihr fun n hn => h n (mem_names_binary.2 (.inr hn)) with ⟨y, hy, hr⟩ | ⟨hzero, hr⟩
        · rw [hl, hr]
          exact apply_cases op hx hy
        · rw [hl, hr]
          exact .inr ⟨.right hzero, rfl⟩
      · rw [hl]
        exact .inr ⟨.left hzero, rfl⟩

end
end Stencil.Arithmetic.Expr
