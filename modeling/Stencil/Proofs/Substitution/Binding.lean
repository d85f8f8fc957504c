import Stencil.Definition

/-! # What is bound

Binding arguments to a definition binds exactly its parameters (`mem_names_bind`), each to the value of an
argument or to its default (`forall_bind`). -/
set_option autoImplicit false
namespace Stencil

theorem isSome_lookup_iff {bound : Bindings} {n : Text} :
    (bound.lookup n).isSome = true ↔ n ∈ bound.map Prod.fst := by
  rw [List.lookup_isSome_iff, List.mem_map]
  refine exists_congr fun p => and_congr_right fun _ => ?_
  rw [beq_iff_eq]
  exact eq_comm

namespace Definition

theorem mem_names_bindRequired {d : Definition} {args : List Argument} :
    ∀ {params : List Text} {values rest : List Value} {bound bound' : Bindings},
    d.bindRequired args params values bound = .ok (bound', rest) → ∀ n,
      n ∈ bound'.map Prod.fst ↔ n ∈ params ∨ n ∈ bound.map Prod.fst := by
  intro params
  induction params with
  | nil =>
      intro values rest bound bound' h n
      obtain ⟨rfl, -⟩ := Prod.mk.inj (Except.ok.inj h)
      simp
  | cons param params ih =>
      intro values rest bound bound' h n
      have hnext : ∀ {vs : List Value} {x : Value},
          d.bindRequired args params vs ((param, x) :: bound) = .ok (bound', rest) →
          (n ∈ bound'.map Prod.fst ↔ n ∈ param :: params ∨ n ∈ bound.map Prod.fst) := by
        intro vs x hrun
        rw [ih hrun n, List.map_cons, List.mem_cons, List.mem_cons, or_left_comm, or_assoc]
      cases values with
      | cons x values => exact hnext h
      | nil =>
          rw [bindRequired] at h
          split at h
          · exact hnext h
          · cases h

theorem mem_names_bindOptional {args : List Argument} : ∀ {params : List (Text × Value)}
    {values : List Value} {bound : Bindings} (n : Text),
      n ∈ (bindOptional args params values bound).1.map Prod.fst ↔
        n ∈ params.map Prod.fst ∨ n ∈ bound.map Prod.fst := by
  intro params
  induction params with
  | nil => intro values bound n; simp [bindOptional]
  | cons param params ih =>
      intro values bound n
      obtain ⟨name, default⟩ := param
      have hnext : ∀ (vs : List Value) (x : Value),
          n ∈ (bindOptional args params vs ((name, x) :: bound)).1.map Prod.fst ↔
            n ∈ ((name, default) :: params).map Prod.fst ∨ n ∈ bound.map Prod.fst := by
        intro vs x
        rw [ih n, List.map_cons, List.map_cons, List.mem_cons, List.mem_cons, or_left_comm, or_assoc]
      unfold bindOptional
      split
      · exact hnext _ _
      · exact hnext _ _
      · exact hnext _ _

theorem mem_names_bind {d : Definition} {args : List Argument} {bound : Bindings}
    {warnings : List Warning} (h : d.bind args = .ok (bound, warnings)) (n : Text) :
    n ∈ bound.map Prod.fst ↔ d.hasParam n = true := by
  rw [bind] at h
  split at h
  · cases h
  next first values hrequired =>
    obtain ⟨rfl, -⟩ := Prod.mk.inj (Except.ok.inj h)
    rw [mem_names_bindOptional n, mem_names_bindRequired hrequired n]
    simp [hasParam, or_comm]

/-! ## Values -/

section

variable {P : Value → Prop} {args : List Argument}

theorem of_named? (hargs : ∀ a ∈ args, P a.value) {n : Text} {x : Value}
    (h : Argument.named? args n = some x) : P x := by
  obtain ⟨a, ha, rfl⟩ := Option.map_eq_some_iff.1 h
  exact hargs a (List.mem_reverse.1 (List.mem_of_find?_eq_some ha))

theorem forall_positional (hargs : ∀ a ∈ args, P a.value) : ∀ x ∈ Argument.positional args, P x := by
  intro x hx
  obtain ⟨a, ha, heq⟩ := List.mem_filterMap.1 hx
  split at heq
  · obtain rfl := Option.some.inj heq
    exact hargs a ha
  · cases heq

theorem forall_bindRequired {d : Definition} (hargs : ∀ a ∈ args, P a.value) :
    ∀ {params : List Text} {values rest : List Value} {bound bound' : Bindings},
    (∀ x ∈ values, P x) → (∀ p ∈ bound, P p.2) →
    d.bindRequired args params values bound = .ok (bound', rest) →
    (∀ p ∈ bound', P p.2) ∧ ∀ x ∈ rest, P x := by
  intro params
  induction params with
  | nil =>
      intro values rest bound bound' hvalues hbound h
      obtain ⟨rfl, rfl⟩ := Prod.mk.inj (Except.ok.inj h)
      exact ⟨hbound, hvalues⟩
  | cons param params ih =>
      intro values rest bound bound' hvalues hbound h
      cases values with
      | cons x values =>
          obtain ⟨hx, hvalues⟩ := List.forall_mem_cons.1 hvalues
          exact ih hvalues (List.forall_mem_cons.2 ⟨hx, hbound⟩) h
      | nil =>
          rw [bindRequired] at h
          split at h
          next x hx =>
            exact ih (by simp) (List.forall_mem_cons.2 ⟨of_named? hargs hx, hbound⟩) h
          next => cases h

theorem forall_bindOptional (hargs : ∀ a ∈ args, P a.value) : ∀ {params : List (Text × Value)}
    {values : List Value} {bound : Bindings}, (∀ q ∈ params, P q.2) → (∀ x ∈ values, P x) →
    (∀ p ∈ bound, P p.2) → ∀ p ∈ (bindOptional args params values bound).1, P p.2 := by
  intro params
  induction params with
  | nil => intro values bound _ _ hbound; exact hbound
  | cons param params ih =>
      intro values bound hparams hvalues hbound
      obtain ⟨name, default⟩ := param
      obtain ⟨hdefault, hparams⟩ := List.forall_mem_cons.1 hparams
      unfold bindOptional
      split
      next x values hx =>
        exact ih hparams hvalues (List.forall_mem_cons.2 ⟨of_named? hargs hx, hbound⟩)
      next x values _ =>
        obtain ⟨hx, hvalues⟩ := List.forall_mem_cons.1 hvalues
        exact ih hparams hvalues (List.forall_mem_cons.2 ⟨hx, hbound⟩)
      next => exact ih hparams (by simp) (List.forall_mem_cons.2 ⟨hdefault, hbound⟩)

/-- What holds of the arguments and of the defaults holds of the values that are bound. -/
theorem forall_bind {d : Definition} {bound : Bindings} {warnings : List Warning}
    (hargs : ∀ a ∈ args, P a.value) (hdefaults : ∀ q ∈ d.optional, P q.2)
    (h : d.bind args = .ok (bound, warnings)) : ∀ p ∈ bound, P p.2 := by
  rw [bind] at h
  split at h
  · cases h
  next first values hrequired =>
    obtain ⟨rfl, -⟩ := Prod.mk.inj (Except.ok.inj h)
    obtain ⟨hfirst, hvalues⟩ :=
      forall_bindRequired hargs (forall_positional hargs) (by simp) hrequired
    exact forall_bindOptional hargs hdefaults hvalues hfirst

end

end Definition
end Stencil
