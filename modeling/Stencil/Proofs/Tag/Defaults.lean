import Stencil.Proofs.Decimal.Reflexive
import Stencil.Proofs.Tag.Located

/-! # Definitions compare equal to themselves

A definition of a template equals itself, since its defaults are texts and numerals, which do
(`beq_self_of_mem_parse`). `Yields` carries the property through the readers. -/
set_option autoImplicit false
namespace Stencil

namespace Reader

variable {α β : Type}

/-- Whatever the reader gives has the property. -/
structure Yields (P : α → Prop) (p : Reader α) : Prop where
  holds : ∀ {c : Cursor} {a : α} {c' : Cursor}, p.run c = .ok (a, c') → P a

theorem yields_pure {P : α → Prop} {a : α} (h : P a) : Yields P (pure a : Reader α) := by
  refine ⟨fun {c b c'} hb => ?_⟩
  obtain ⟨rfl, -⟩ := Prod.mk.inj (Except.ok.inj hb)
  exact h

theorem yields_fail (P : α → Prop) (expected : List Text) : Yields P (fail expected) := by
  refine ⟨fun {c b c'} hb => ?_⟩
  cases hb

theorem Yields.bind {P : α → Prop} {Q : β → Prop} {p : Reader α} {f : α → Reader β}
    (hp : Yields P p) (hf : ∀ a, P a → Yields Q (f a)) : Yields Q (p >>= f) := by
  refine ⟨fun {c b c'} h => ?_⟩
  rw [StateT.run_bind] at h
  cases hpc : p.run c with
  | error e => rw [hpc] at h; cases h
  | ok r =>
      rw [hpc] at h
      exact (hf r.1 (hp.holds hpc)).holds h

/-- A step whose result does not matter. -/
theorem yields_bind {Q : β → Prop} {p : Reader α} {f : α → Reader β}
    (hf : ∀ a, Yields Q (f a)) : Yields Q (p >>= f) :=
  Yields.bind (P := fun _ => True) ⟨fun _ => trivial⟩ fun a _ => hf a

theorem Yields.ite {P : α → Prop} {C : Prop} [Decidable C] {p q : Reader α} (hp : Yields P p)
    (hq : Yields P q) : Yields P (if C then p else q) := by
  split <;> assumption

/-! ## Values and parameters -/

def EqualsItself (v : Value) : Prop := (v == v) = true

theorem equalsItself_text (t : Text) : EqualsItself (.text t) := by
  show (t == t) = true
  exact beq_self_eq_true t

theorem equalsItself_number {x : Float} (h : (x == x) = true) : EqualsItself (.number x) := h

theorem yields_numeral (negative : Bool) :
    Yields (fun x : Float => (x == x) = true) (numeral negative) := by
  refine ⟨fun {c x c'} h => ?_⟩
  simp only [numeral, StateT.run] at h
  split at h
  · cases h
  · obtain ⟨rfl, -⟩ := Prod.mk.inj (Except.ok.inj h)
    exact Decimal.ofNumeral_beq_self ..

theorem yields_value (also : List Text) : Yields EqualsItself (value also) := by
  refine yields_bind fun o => ?_
  cases o with
  | none => exact yields_fail _ _
  | some c =>
      have hnumber : Yields (fun x : Float => (x == x) = true) number :=
        yields_bind fun negative => yields_numeral negative
      exact .ite (yields_bind fun t => yields_pure (equalsItself_text t))
        (.ite (hnumber.bind fun x hx => yields_pure (equalsItself_number hx)) (yields_fail _ _))

theorem yields_parameter (defaulted : Bool) :
    Yields (fun p => ∀ v ∈ p.2, EqualsItself v) (parameter defaulted) := by
  unfold parameter
  refine yields_bind fun _ => yields_bind fun n => yields_bind fun _ => yields_bind fun b => ?_
  refine .ite (yields_bind fun _ => (yields_value []).bind fun v hv => yields_bind fun _ => ?_)
    (.ite (yields_fail _ _) (yields_pure (by simp)))
  exact yields_pure (by simpa using hv)

theorem equalsItself_add {p : Text × Option Value} {ps : Params}
    (hp : ∀ v ∈ p.2, EqualsItself v) (hps : ∀ q ∈ ps.optional, EqualsItself q.2) :
    ∀ q ∈ (Params.add p ps).optional, EqualsItself q.2 := by
  obtain ⟨n, o⟩ := p
  cases o with
  | none => exact hps
  | some v =>
      intro q hq
      rcases List.mem_cons.1 hq with rfl | hq
      · exact hp v rfl
      · exact hps q hq

theorem yields_parametersFrom (defaulted : Bool) :
    Yields (fun ps => ∀ q ∈ ps.optional, EqualsItself q.2)
      (parametersFrom defaulted : Reader Params) := by
  refine ⟨fun {c ps c'} h => ?_⟩
  simp only [StateT.run] at h
  fun_induction parametersFrom defaulted c generalizing ps with
  | case1 => cases h
  | case2 => cases h
  | case3 => cases h
  | case4 defaulted c p next hp tail qs last hn hr ih =>
      obtain ⟨rfl, rfl⟩ := Prod.mk.inj (Except.ok.inj h)
      exact equalsItself_add ((yields_parameter _).holds hp) (ih hn)
  | case5 defaulted c p next hp =>
      obtain ⟨rfl, -⟩ := Prod.mk.inj (Except.ok.inj h)
      exact equalsItself_add ((yields_parameter _).holds hp) (by simp)
  | case6 => cases h

def defaults : Form → List (Text × Value)
  | .single _ => []
  | .block ps => ps.optional

theorem yields_parameters :
    Yields (fun ps => ∀ q ∈ ps.optional, EqualsItself q.2) parameters :=
  yields_bind fun _ => yields_bind fun _ => yields_bind fun _ =>
    .ite (yields_pure (by simp)) (yields_parametersFrom _)

theorem yields_form : Yields (fun f => ∀ q ∈ defaults f, EqualsItself q.2) form := by
  refine yields_bind fun o => ?_
  split
  · exact yields_bind fun _ => yields_bind fun _ => yields_bind fun v => yields_bind fun _ =>
      yields_bind fun _ => yields_pure (by simp [defaults])
  · exact yields_parameters.bind fun ps hps => yields_bind fun _ => yields_bind fun _ =>
      yields_pure hps
  · exact yields_bind fun _ => yields_pure (by simp [defaults])
  · exact yields_fail _ _

theorem yields_opening : Yields (fun o => ∀ q ∈ defaults o.form, EqualsItself q.2) opening :=
  yields_bind fun _ => yields_bind fun _ => yields_bind fun _ => yields_bind fun _ =>
    yields_bind fun _ => yields_bind fun _ => yields_form.bind fun _ hf => yields_pure hf

end Reader

/-! ## Definitions -/

theorem Definition.beq_self {d : Definition}
    (h : ∀ q ∈ d.optional, Reader.EqualsItself q.2) : (d == d) = true := by
  obtain ⟨name, required, optional, content, raw⟩ := d
  have hoptional : (optional == optional) = true := by
    induction optional with
    | nil => rfl
    | cons q qs ih =>
        have hq : (q == q) = true := by
          show (q.1 == q.1 && q.2 == q.2) = true
          rw [Bool.and_eq_true]
          exact ⟨beq_self_eq_true q.1, h q (List.mem_cons_self ..)⟩
        show (q == q && qs == qs) = true
        rw [Bool.and_eq_true]
        exact ⟨hq, ih fun r hr => h r (List.mem_cons_of_mem _ hr)⟩
  show (name == name && (required == required && (optional == optional &&
    (content == content && raw == raw)))) = true
  simp [hoptional]

theorem Node.beq_self_of_definition {c last : Cursor} {d : Definition} {s : DefinitionSource}
    (h : definition c = .ok (d, s, last)) : (d == d) = true := by
  simp only [definition] at h
  split at h
  · cases h
  next o next ho =>
    have hdefaults := Reader.yields_opening.holds ho
    split at h
    next v _ =>
      simp only [Except.ok.injEq, Prod.mk.injEq] at h
      obtain ⟨rfl, -, -⟩ := h
      exact Definition.beq_self (by simp [singleDefinition])
    next ps hform =>
      rw [hform] at hdefaults
      split at h
      · cases h
      · simp only [Except.ok.injEq, Prod.mk.injEq] at h
        obtain ⟨rfl, -, -⟩ := h
        exact Definition.beq_self hdefaults

theorem beq_self_of_mem_parse {t : Text} {nodes : List Node} {d : Definition}
    {s : DefinitionSource} (h : parse t = .ok nodes) (hd : .define d s ∈ nodes) :
    (d == d) = true := by
  obtain ⟨c, next, -, hdef⟩ := (located_of_parse h).exists_define hd
  exact Node.beq_self_of_definition hdef

end Stencil
