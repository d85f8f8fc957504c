import Stencil.Proofs.Arithmetic.Evaluation
import Stencil.Proofs.Rendering.Quiet
import Stencil.Proofs.Tag.Reads

/-! # Expressions in the text

A slot with an expression takes the numbers of its names from the table. It stays if a name has none;
otherwise it becomes the text of its value, or the rendering ends with a division by zero, and that a variable
is no number is never reported (`run_slot?_expression`). A variable with defaults for all its parameters has a
number as one without parameters has. -/
set_option autoImplicit false
namespace Stencil

namespace SymbolTable

/-- The variable is not raw, needs no argument, and its content reads as the finite number when the blanks
around it are left out. -/
def HasNumber (table : SymbolTable) (n : Text) (x : Float) : Prop :=
  ∃ d, table.get? n = some d ∧ d.raw = false ∧ d.required = [] ∧
    Decimal.read? (Text.trim d.content) = some x ∧ Decimal.isFinite x = true

/-- The variable declares no parameters, also none with a default. -/
def Parameterless (table : SymbolTable) (n : Text) : Prop :=
  ∀ d, table.get? n = some d → d.required = [] ∧ d.optional = []

theorem numericValue?_eq_some_iff {d : Definition} {x : Float} : d.numericValue? = some x ↔
    d.raw = false ∧ d.required = [] ∧ Decimal.read? (Text.trim d.content) = some x ∧
      Decimal.isFinite x = true := by
  unfold Definition.numericValue?
  split
  next h =>
    refine iff_of_false nofun fun hx => ?_
    rcases h with h | h
    · rw [h] at hx
      cases hx.1
    · exact h hx.2.1
  next h =>
    obtain ⟨hraw, hrequired⟩ := not_or.1 h
    simp [Value.asNumber?, Option.filter_eq_some_iff, hraw, Classical.not_not.1 hrequired]

theorem hasNumber_iff {table : SymbolTable} {n : Text} {x : Float} :
    table.HasNumber n x ↔ (table.get? n).bind Definition.numericValue? = some x := by
  simp only [HasNumber, Option.bind_eq_some_iff, numericValue?_eq_some_iff]

theorem scope_of_hasNumber {table : SymbolTable} (n : Text) (x : Float) (h : table.HasNumber n x) :
    table.scope n = some (.number x) := by
  rw [scope, hasNumber_iff.1 h]
  rfl

theorem isSome_scope_iff {table : SymbolTable} {n : Text} :
    (table.scope n).isSome = true ↔ ∃ x, table.HasNumber n x := by
  simp only [scope, Option.isSome_map, Option.isSome_iff_exists, hasNumber_iff]

end SymbolTable

namespace Rendering

variable (engine : Engine) {s : Slot} {e : Arithmetic.Expr} {w : Work}

theorem run_slot?_of_expr (hs : s.expr = some e) : (slot? engine s).run.run w =
    if (e.names.all fun n => (w.context.definitions.scope n).isSome) = true then
      match e.eval w.context.definitions.scope with
      | .ok x => (.ok (some (formatNumber x, [])), w)
      | .error f => (.error (.eval f), w)
    else (.ok none, w) := by
  have hslot : slot? engine s = arithmetic e >>= fun r => pure (r.map (·, [])) := by
    unfold slot?
    rw [hs]
  rw [hslot, run_bind, run_arithmetic]
  by_cases hall : (e.names.all fun n => (w.context.definitions.scope n).isSome) = true
  · rw [if_pos hall, if_pos hall]
    cases e.eval w.context.definitions.scope <;> rfl
  · rw [if_neg hall, if_neg hall]
    rfl

theorem run_slot?_of_hasNumber (hs : s.expr = some e)
    (h : ∀ n ∈ e.names, ∃ x, w.context.definitions.HasNumber n x) :
    (∃ x, e.HasValue w.context.definitions.HasNumber x ∧
      (slot? engine s).run.run w = (.ok (some (formatNumber x, [])), w)) ∨
    e.DividesByZero w.context.definitions.HasNumber ∧
      (slot? engine s).run.run w = (.error (.eval .divisionByZero), w) := by
  have hall : (e.names.all fun n => (w.context.definitions.scope n).isSome) = true :=
    List.all_eq_true.2 fun n hn => SymbolTable.isSome_scope_iff.2 (h n hn)
  rw [run_slot?_of_expr engine hs, if_pos hall]
  rcases Arithmetic.Expr.eval_cases SymbolTable.scope_of_hasNumber h with ⟨x, hx, heval⟩ | ⟨hzero, heval⟩
  · exact .inl ⟨x, hx, by rw [heval]⟩
  · exact .inr ⟨hzero, by rw [heval]⟩

theorem run_slot?_of_no_number (hs : s.expr = some e) {n : Text} (hn : n ∈ e.names)
    (h : ∀ x, ¬ w.context.definitions.HasNumber n x) : (slot? engine s).run.run w = (.ok none, w) := by
  have hall : ¬ (e.names.all fun n => (w.context.definitions.scope n).isSome) = true := by
    intro hall
    obtain ⟨x, hx⟩ := SymbolTable.isSome_scope_iff.1 (List.all_eq_true.1 hall n hn)
    exact h x hx
  rw [run_slot?_of_expr engine hs, if_neg hall]

theorem run_slot?_eq_none_iff (hs : s.expr = some e) :
    (slot? engine s).run.run w = (.ok none, w) ↔
      ∃ n ∈ e.names, ∀ x, ¬ w.context.definitions.HasNumber n x := by
  constructor
  · intro hrun
    by_contra hnone
    push Not at hnone
    rcases run_slot?_of_hasNumber engine hs hnone with ⟨x, -, hx⟩ | ⟨-, hzero⟩
    · rw [hx] at hrun
      cases Except.ok.inj (Prod.mk.inj hrun).1
    · rw [hzero] at hrun
      cases (Prod.mk.inj hrun).1
  · rintro ⟨n, hn, h⟩
    exact run_slot?_of_no_number engine hs hn h

/-- What becomes of a slot with an expression. It stays exactly if one of its names has no number; else it
becomes its value, or a divisor in it is zero. The test that asks for variables without any parameters finds
out in the same cases whether it stays, apart from this: a name that has defaults for its parameters, in an
expression whose names all have numbers. -/
theorem run_slot?_expression (engine : Engine) (s : Slot) (e : Arithmetic.Expr) (w : Work)
    (hs : s.expr = some e) :
    ((slot? engine s).run.run w = (.ok none, w) ↔
      ∃ n ∈ e.names, ∀ x, ¬ w.context.definitions.HasNumber n x) ∧
    ((∀ n ∈ e.names, ∃ x, w.context.definitions.HasNumber n x) →
      (∃ x, e.HasValue w.context.definitions.HasNumber x ∧
        ¬ e.DividesByZero w.context.definitions.HasNumber ∧
        (slot? engine s).run.run w = (.ok (some (formatNumber x, [])), w)) ∨
      e.DividesByZero w.context.definitions.HasNumber ∧
        (slot? engine s).run.run w = (.error (.eval .divisionByZero), w)) ∧
    (∀ n v, ((slot? engine s).run.run w).1 ≠ .error (.eval (.notANumber n v))) ∧
    (((slot? engine s).run.run w = (.ok none, w) ↔ ∃ n ∈ e.names, ∀ x,
        ¬ (w.context.definitions.HasNumber n x ∧ w.context.definitions.Parameterless n)) ↔
      (∃ n ∈ e.names, ∀ x, ¬ w.context.definitions.HasNumber n x) ∨
        ∀ n ∈ e.names, w.context.definitions.Parameterless n) := by
  have hnone : (slot? engine s).run.run w = (.ok none, w) ↔ _ := run_slot?_eq_none_iff engine hs
  refine ⟨hnone, fun h => ?_, fun n v hrun => ?_, ?_⟩
  · rcases run_slot?_of_hasNumber engine hs h with ⟨x, hx, hrun⟩ | hzero
    · exact .inl ⟨x, hx, fun hdiv => hdiv.not_hasValue SymbolTable.scope_of_hasNumber x hx, hrun⟩
    · exact .inr hzero
  · by_cases h : ∃ n ∈ e.names, ∀ x, ¬ w.context.definitions.HasNumber n x
    · rw [hnone.2 h] at hrun
      cases hrun
    · push Not at h
      rcases run_slot?_of_hasNumber engine hs h with ⟨x, -, hx⟩ | ⟨-, hzero⟩
      · rw [hx] at hrun
        cases hrun
      · rw [hzero] at hrun
        cases hrun
  · rw [hnone]
    by_cases h : ∃ n ∈ e.names, ∀ x, ¬ w.context.definitions.HasNumber n x
    · obtain ⟨n, hn, hx⟩ := id h
      exact iff_of_true (iff_of_true h ⟨n, hn, fun x hboth => hx x hboth.1⟩) (.inl h)
    · have hall := h
      push Not at hall
      rw [or_iff_right h, iff_false_left h]
      constructor
      · intro hplain n hn
        by_contra hparams
        exact hplain ⟨n, hn, fun x hboth => hparams hboth.2⟩
      · rintro hplain ⟨n, hn, hx⟩
        obtain ⟨x, hnumber⟩ := hall n hn
        exact hx x ⟨hnumber, hplain n hn⟩

def sizes : Work :=
  { context := { definitions := { entries := [
      ("h".toList, { name := "h".toList, optional := [("unit".toList, .text "px".toList)],
                     content := "4".toList }),
      ("w".toList, { name := "w".toList, content := " -7 ".toList })] } }
    vault := .empty }

def ratio : Arithmetic.Expr :=
  .binary .div (.name "w".toList) (.binary .sub (.name "h".toList) (.number 2.0))

def ratioSlot : Slot := { name := "w/(h-2)".toList, args := [], raw := false, expr := some ratio }

theorem run_slot?_expression_sizes : ratioSlot.expr = some ratio ∧
    (∀ n ∈ ratio.names, ∃ x, sizes.context.definitions.HasNumber n x) ∧
    ∃ x, ratio.HasValue sizes.context.definitions.HasNumber x ∧ formatNumber x = "-3.5".toList ∧
      (slot? {} ratioSlot).run.run sizes = (.ok (some ("-3.5".toList, [])), sizes) := by
  have hnumbers : ∀ n ∈ ratio.names, ∃ x, sizes.context.definitions.HasNumber n x := by
    intro n hn
    have hnames : ratio.names = ["w".toList, "h".toList] := rfl
    rw [hnames, List.mem_cons, List.mem_singleton] at hn
    rcases hn with rfl | rfl
    · exact ⟨-7.0, _, rfl, rfl, rfl, by decide +kernel, by decide +kernel⟩
    · exact ⟨4.0, _, rfl, rfl, rfl, by decide +kernel, by decide +kernel⟩
  obtain ⟨-, hslot, -⟩ := run_slot?_expression {} ratioSlot ratio sizes rfl
  have heval : ratio.eval sizes.context.definitions.scope = .ok (-3.5) := by decide +kernel
  rcases hslot hnumbers with ⟨x, hx, -, hrun⟩ | ⟨-, hrun⟩
  · obtain rfl : x = -3.5 := Except.ok.inj
      ((Arithmetic.Expr.eval_of_hasValue SymbolTable.scope_of_hasNumber hx).symm.trans heval)
    have htext : formatNumber (-3.5) = "-3.5".toList := by decide +kernel
    exact ⟨rfl, hnumbers, -3.5, hx, htext, by rw [hrun, htext]⟩
  · have hvalue : ((slot? {} ratioSlot).run.run sizes).1 = .ok (some ("-3.5".toList, [])) := by
      decide +kernel
    rw [hrun] at hvalue
    cases hvalue

def defaultedText : Text := bracketed "[x(a=1)]5[/x][[x+1]]"

/-- The sum has a value, although its name has a parameter. -/
theorem render_defaulted : (Engine.render {} defaultedText {}).1 = .ok (.text ['6']) ∧
    ((Engine.render {} defaultedText {}).2.definitions.get? ['x']).map Definition.optional =
      some [(['a'], .number 1.0)] := by
  decide +kernel

end Rendering
end Stencil
