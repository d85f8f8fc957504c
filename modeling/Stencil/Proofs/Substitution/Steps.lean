import Stencil.Proofs.Substitution.Edits

/-! # Steps of a substitution

What a substitution that succeeds did: for the nodes in order, for a slot, for the arguments of a
slot. -/
set_option autoImplicit false
namespace Stencil.Substitution

variable {inner : Inner} {bound : Bindings}

theorem exists_of_nodes_cons {n : Node} {ns : List Node} {v w : Vault} {u : Text}
    (h : nodes inner bound (n :: ns) v = .ok (u, w)) :
    ∃ x v₁ y, node inner bound n v = .ok (x, v₁) ∧ nodes inner bound ns v₁ = .ok (y, w) ∧
      u = x ++ y := by
  obtain ⟨⟨x, v₁⟩, hx, h⟩ := exists_of_bind h
  obtain ⟨⟨y, w'⟩, hy, h⟩ := exists_of_bind h
  obtain ⟨rfl, rfl⟩ := Prod.mk.inj (Except.ok.inj h)
  exact ⟨x, v₁, y, hx, hy, rfl⟩

theorem exists_of_nodes_consText {ch : Char} {ns : List Node} {v w : Vault} {u : Text}
    (h : nodes inner bound (Node.consText ch ns) v = .ok (u, w)) :
    ∃ y, nodes inner bound ns v = .ok (y, w) ∧ u = ch :: y := by
  have hsingle : ∀ {ms : List Node}, nodes inner bound (.text [ch] :: ms) v = .ok (u, w) →
      ∃ y, nodes inner bound ms v = .ok (y, w) ∧ u = ch :: y := by
    intro ms h
    obtain ⟨x, v₁, y, hx, hy, rfl⟩ := exists_of_nodes_cons h
    obtain ⟨rfl, rfl⟩ := Prod.mk.inj (Except.ok.inj hx)
    exact ⟨y, hy, rfl⟩
  cases ns with
  | nil => exact hsingle h
  | cons n ns =>
      cases n with
      | text source =>
          obtain ⟨x, v₁, y, hx, hy, rfl⟩ := exists_of_nodes_cons h
          obtain ⟨rfl, rfl⟩ := Prod.mk.inj (Except.ok.inj hx)
          refine ⟨source ++ y, ?_, rfl⟩
          show (nodes inner bound ns v >>= fun p => pure (source ++ p.1, p.2)) = _
          rw [hy]
          rfl
      | slot s z => exact hsingle h
      | define d source => exact hsingle h

/-- A substitution for no names leaves the content as it is. -/
theorem toDepth_nil (depth : Nat) (t : Text) (v : Vault) : toDepth depth t [] v = .ok (t, v) := by
  cases depth with
  | zero => rfl
  | succ depth => exact if_pos rfl

theorem exists_of_toDepth {depth : Nat} {t u : Text} {v w : Vault} (hbound : bound ≠ [])
    (h : toDepth (depth + 1) t bound v = .ok (u, w)) :
    ∃ ns, parse t = .ok ns ∧ nodes (toDepth depth) bound ns v = .ok (u, w) := by
  rw [toDepth_succ, if_neg hbound] at h
  exact exists_of_bind h

theorem mem_of_lookup {α : Type} {es : List (Text × α)} {n : Text} {x : α}
    (h : es.lookup n = some x) : (n, x) ∈ es := by
  obtain ⟨front, rear, rfl, -⟩ := List.lookup_eq_some_iff.1 h
  simp

/-! ## Arguments -/

/-- What a substitution did to the value of an argument. -/
inductive ValueStep (inner : Inner) (bound : Bindings) : Value → Vault → Value → Vault → Prop
  | same {x : Value} {v : Vault} : (∀ t, x = .text t → (Text.before? ['{', '{'] t).isSome = false) →
      ValueStep inner bound x v x v
  | text {t u : Text} {v w : Vault} : (Text.before? ['{', '{'] t).isSome = true →
      inner t bound v = .ok (u, w) → ValueStep inner bound (.text t) v (.text u) w

theorem exists_of_arguments_cons {a : Argument} {as bs : List Argument} {v w : Vault}
    (h : arguments inner bound (a :: as) v = .ok (bs, w)) :
    ∃ x v₁ others, ValueStep inner bound a.value v x v₁ ∧
      arguments inner bound as v₁ = .ok (others, w) ∧ bs = { a with value := x } :: others := by
  have hrest : ∀ {x : Value} {v₁ : Vault}, ValueStep inner bound a.value v x v₁ →
      (arguments inner bound as v₁ >>= fun p =>
        pure ({ a with value := x } :: p.1, p.2) : Except Error _) = .ok (bs, w) →
      ∃ x v₁ others, ValueStep inner bound a.value v x v₁ ∧
        arguments inner bound as v₁ = .ok (others, w) ∧ bs = { a with value := x } :: others := by
    intro x v₁ hstep hrun
    obtain ⟨⟨others, w'⟩, hothers, hrun⟩ := exists_of_bind hrun
    obtain ⟨rfl, rfl⟩ := Prod.mk.inj (Except.ok.inj hrun)
    exact ⟨x, v₁, others, hstep, hothers, rfl⟩
  obtain ⟨name, value⟩ := a
  cases value with
  | number y => exact hrest (.same nofun) h
  | text t =>
      rw [arguments] at h
      by_cases hshows : (Text.before? ['{', '{'] t).isSome = true
      · simp only [if_pos hshows] at h
        obtain ⟨⟨u, v₂⟩, hu, h⟩ := exists_of_bind h
        exact hrest (.text hshows hu) h
      · simp only [if_neg hshows] at h
        refine hrest (.same fun s hs => ?_) h
        obtain rfl := Value.text.inj hs
        simpa using hshows

end Stencil.Substitution
