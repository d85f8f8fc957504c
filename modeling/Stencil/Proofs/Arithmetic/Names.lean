import Mathlib.Data.List.Nodup
import Stencil.Proofs.Arithmetic.Evaluation

/-! # The names of an expression

`Expr.uses` lists the name of every use, and the names are the uses with repetitions left out
(`firstUses_names`). Scopes that agree on them give an expression the same value or the same error, and only a
name among them that has no number is ever reported (`eval_by_names`). -/
set_option autoImplicit false
namespace Stencil.Arithmetic.Expr

def uses : Expr → List Text
  | .number _ => []
  | .name t => [t]
  | .neg e => e.uses
  | .binary _ left right => left.uses ++ right.uses

/-- The elements of `uses`, each once, in the order in which they are first used. -/
structure FirstUses (uses names : List Text) : Prop where
  mem_iff : ∀ n, n ∈ names ↔ n ∈ uses
  order : names.Pairwise fun n m => uses.idxOf n < uses.idxOf m

theorem FirstUses.nodup {uses names : List Text} (h : FirstUses uses names) : names.Nodup :=
  h.order.imp fun hlt heq => Nat.ne_of_lt hlt (congrArg uses.idxOf heq)

/-- Later uses leave the order of the names as it is. -/
theorem FirstUses.order_append {uses names : List Text} (h : FirstUses uses names) (later : List Text) :
    names.Pairwise fun n m => (uses ++ later).idxOf n < (uses ++ later).idxOf m := by
  refine h.order.imp_of_mem fun {n m} hn hm hlt => ?_
  rwa [List.idxOf_append_of_mem ((h.mem_iff n).1 hn), List.idxOf_append_of_mem ((h.mem_iff m).1 hm)]

theorem FirstUses.again {uses names : List Text} {t : Text} (h : FirstUses uses names) (ht : t ∈ names) :
    FirstUses (uses ++ [t]) names where
  mem_iff n := by
    rw [h.mem_iff, List.mem_append, List.mem_singleton]
    exact ⟨.inl, fun hn => hn.elim id fun heq => heq ▸ (h.mem_iff t).1 ht⟩
  order := h.order_append [t]

theorem FirstUses.concat {uses names : List Text} {t : Text} (h : FirstUses uses names) (ht : t ∉ names) :
    FirstUses (uses ++ [t]) (names ++ [t]) where
  mem_iff n := by rw [List.mem_append, List.mem_append, h.mem_iff]
  order := by
    refine List.pairwise_append.2 ⟨h.order_append [t], List.pairwise_singleton .., fun n hn m hm => ?_⟩
    obtain rfl := List.mem_singleton.1 hm
    have hused : n ∈ uses := (h.mem_iff n).1 hn
    have hnew : m ∉ uses := fun hmem => ht ((h.mem_iff m).2 hmem)
    rw [List.idxOf_append_of_mem hused, List.idxOf_append_of_notMem hnew]
    exact Nat.lt_add_right _ (List.idxOf_lt_length_of_mem hused)

/-- The walk over an expression keeps the first uses of all that it has gone past. -/
theorem FirstUses.addNames (e : Expr) : ∀ {past seen : List Text}, FirstUses past seen →
    FirstUses (past ++ e.uses) (e.addNames seen) := by
  induction e with
  | number x =>
      intro past seen h
      rw [uses, List.append_nil]
      exact h
  | name t =>
      intro past seen h
      by_cases ht : t ∈ seen
      · rw [Expr.addNames, if_pos ht]
        exact h.again ht
      · rw [Expr.addNames, if_neg ht]
        exact h.concat ht
  | neg e ih => intro past seen h; exact ih h
  | binary op l r ihl ihr =>
      intro past seen h
      -- the right operand is walked over with what the left one has added
      rw [uses, ← List.append_assoc]
      exact ihr (ihl h)

theorem firstUses_names (e : Expr) : FirstUses e.uses e.names :=
  FirstUses.addNames e ⟨fun _ => Iff.rfl, .nil⟩

/-! ## Evaluation in two scopes -/

theorem eval_congr {scope other : Scope} {e : Expr} (h : ∀ n ∈ e.names, scope n = other n) :
    e.eval scope = e.eval other := by
  induction e with
  | number x => rfl
  | name t => rw [eval, eval, h t (by simp)]
  | neg e ih => rw [eval, eval, ih h]
  | binary op l r ihl ihr =>
      rw [eval_binary, eval_binary, ihl fun n hn => h n (mem_names_binary.2 (.inl hn)),
        ihr fun n hn => h n (mem_names_binary.2 (.inr hn))]

def LacksNumber (scope : Scope) (n : Text) : Prop :=
  scope n = none ∨ ∃ value, scope n = some value ∧ value.asNumber? = none

theorem apply_ne_notANumber (op : Operator) (x y : Float) (n shown : Text) :
    op.apply x y ≠ .error (.notANumber n shown) := by
  intro h
  cases op with
  | div =>
      rw [Operator.apply] at h
      split at h
      · cases h
      · cases h
  | _ => cases h

theorem lacksNumber_of_eval {scope : Scope} {n shown : Text} {e : Expr}
    (h : e.eval scope = .error (.notANumber n shown)) : n ∈ e.names ∧ LacksNumber scope n := by
  induction e with
  | number x => cases h
  | name t =>
      rw [eval] at h
      split at h
      next => cases h
      next hnumber =>
        obtain ⟨rfl, -⟩ := EvalError.notANumber.inj (Except.error.inj h)
        refine ⟨by simp, ?_⟩
        cases hvalue : scope t with
        | none => exact .inl hvalue
        | some value =>
            rw [hvalue] at hnumber
            exact .inr ⟨value, hvalue, hnumber⟩
  | neg e ih =>
      cases he : e.eval scope with
      | error fault =>
          rw [eval, he] at h
          exact ih (he.trans h)
      | ok x =>
          rw [eval, he] at h
          cases h
  | binary op l r ihl ihr =>
      rw [eval_binary] at h
      cases hl : l.eval scope with
      | error fault =>
          rw [hl] at h
          obtain ⟨hn, hlacks⟩ := ihl (hl.trans h)
          exact ⟨mem_names_binary.2 (.inl hn), hlacks⟩
      | ok x =>
          rw [hl] at h
          cases hr : r.eval scope with
          | error fault =>
              rw [hr] at h
              obtain ⟨hn, hlacks⟩ := ihr (hr.trans h)
              exact ⟨mem_names_binary.2 (.inr hn), hlacks⟩
          | ok y =>
              rw [hr] at h
              exact absurd h (apply_ne_notANumber op x y n shown)

theorem eq_divisionByZero_of_eval {scope : Scope} {e : Expr} {fault : EvalError}
    (hnumbers : ∀ n ∈ e.names, ¬ LacksNumber scope n) (h : e.eval scope = .error fault) :
    fault = .divisionByZero := by
  cases fault with
  | divisionByZero => rfl
  | notANumber n shown =>
      obtain ⟨hn, hlacks⟩ := lacksNumber_of_eval h
      exact absurd hlacks (hnumbers n hn)

/-- Evaluation reads nothing but the names. They are the uses in the order of first use, without repetitions;
scopes that agree on them are alike; a name is reported only if it is one of them and has no number; and where
all of them have numbers the only error is a division by zero. -/
theorem eval_by_names (e : Expr) (scope : Scope) :
    (∀ other : Scope, (∀ n ∈ e.names, scope n = other n) → e.eval scope = e.eval other) ∧
    (e.names.Nodup ∧ (∀ n, n ∈ e.names ↔ n ∈ e.uses) ∧
      e.names.Pairwise fun n m => e.uses.idxOf n < e.uses.idxOf m) ∧
    (∀ n shown, e.eval scope = .error (.notANumber n shown) →
      n ∈ e.names ∧ (scope n = none ∨ ∃ value, scope n = some value ∧ value.asNumber? = none)) ∧
    ((∀ n ∈ e.names, ∃ value x, scope n = some value ∧ value.asNumber? = some x) →
      ∀ fault, e.eval scope = .error fault → fault = .divisionByZero) := by
  have hfirst := firstUses_names e
  refine ⟨fun other => eval_congr, ⟨hfirst.nodup, hfirst.mem_iff, hfirst.order⟩,
    fun n shown => lacksNumber_of_eval,
    fun hnumbers fault => eq_divisionByZero_of_eval fun n hn hlacks => ?_⟩
  obtain ⟨value, x, hvalue, hx⟩ := hnumbers n hn
  rcases hlacks with hnone | ⟨value', hvalue', hnumber⟩
  · rw [hnone] at hvalue
    cases hvalue
  · obtain rfl := Option.some.inj (hvalue'.symm.trans hvalue)
    rw [hnumber] at hx
    cases hx

def quotient : Expr :=
  .binary .sub (.binary .div (.name ['b']) (.name ['a'])) (.neg (.name ['b']))

def dividendOnly : Scope := fun n => if n = ['b'] then some (.number 3.0) else none

def zeroDivisor (unused : Option Value) : Scope := fun n =>
  if n = ['a'] then some (.text " 0 ".toList) else if n = ['c'] then unused else dividendOnly n

theorem eval_by_names_quotient :
    ((∀ n ∈ quotient.names, zeroDivisor none n = zeroDivisor (some (.text ['c'])) n) ∧
      quotient.eval (zeroDivisor none) = quotient.eval (zeroDivisor (some (.text ['c'])))) ∧
    (quotient.eval dividendOnly = .error (.notANumber ['a'] []) ∧ ['a'] ∈ quotient.names ∧
      LacksNumber dividendOnly ['a']) ∧
    ((∀ n ∈ quotient.names, ∃ value x, zeroDivisor none n = some value ∧ value.asNumber? = some x) ∧
      ∀ fault, quotient.eval (zeroDivisor none) = .error fault → fault = .divisionByZero) := by
  obtain ⟨hagree, -, -, hnumbers⟩ := eval_by_names quotient (zeroDivisor none)
  obtain ⟨-, -, hreported, -⟩ := eval_by_names quotient dividendOnly
  have hnames : quotient.names = [['b'], ['a']] := rfl
  have hsame : ∀ n ∈ quotient.names, zeroDivisor none n = zeroDivisor (some (.text ['c'])) n := by
    rw [hnames]
    decide
  have hmissing : quotient.eval dividendOnly = .error (.notANumber ['a'] []) := by decide +kernel
  have hbound : ∀ n ∈ quotient.names, ∃ value x, zeroDivisor none n = some value ∧
      value.asNumber? = some x := by
    rw [hnames, List.forall_mem_cons, List.forall_mem_singleton]
    exact ⟨⟨.number 3.0, 3.0, rfl, rfl⟩, .text " 0 ".toList, 0.0, rfl, by decide +kernel⟩
  exact ⟨⟨hsame, hagree _ hsame⟩, ⟨hmissing, hreported _ _ hmissing⟩, hbound, hnumbers hbound⟩

end Stencil.Arithmetic.Expr
