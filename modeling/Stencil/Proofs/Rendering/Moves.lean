import Stencil.Proofs.Rendering.Passes

/-! # What a step does to the state

A pass does no more to the state than to change the vault, to warn, to call functions and to enter definitions
under free names, and a pass that succeeds also appends attachments. So a relation of states that is reflexive
and transitive and holds before and after each of these (`Steady`) holds before and after each step of a pass,
however the step ends (`Steady.outcomes`, `Steady.defineAll`). -/
set_option autoImplicit false
namespace Stencil.Rendering

variable {α β : Type} {R : Work → Work → Prop} {engine : Engine}

def Moves (R : Work → Work → Prop) (p : Rendering α) : Prop := ∀ w, R w (p.run.run w).2

/-- The relation outlasts all that a pass does before it appends attachments. -/
structure Steady (engine : Engine) (R : Work → Work → Prop) : Prop where
  refl : ∀ w, R w w
  trans : ∀ {u v w}, R u v → R v w → R u w
  vault : ∀ (w : Work) (v : Vault), R w { w with vault := v }
  warn : ∀ (w : Work) (ws : List Warning), R w { w with context := w.context.warn ws }
  call : ∀ {name : Text} {f : Function}, engine.functions.get? name = some f →
    ∀ args : List Value, Moves R (Rendering.call f args)
  enter : ∀ {d : Definition} {w : Work}, w.context.definitions.get? d.name = none →
    engine.functions.get? d.name = none → R w (Rendering.enter d w)

namespace Steady

theorem pure (h : Steady engine R) (a : α) : Moves R (pure a : Rendering α) := h.refl

theorem throw (h : Steady engine R) (e : Error) : Moves R (throw e : Rendering α) := h.refl

theorem bind (h : Steady engine R) {p : Rendering α} {f : α → Rendering β} (hp : Moves R p)
    (hf : ∀ a, Moves R (f a)) : Moves R (p >>= f) := by
  intro w
  have hfirst := hp w
  rw [run_bind]
  cases hrun : p.run.run w with
  | mk r v =>
      rw [hrun] at hfirst
      cases r with
      | error e => exact hfirst
      | ok a => exact h.trans hfirst (hf a v)

theorem get_bind {f : Work → Rendering β} (hf : ∀ w, R w ((f w).run.run w).2) :
    Moves R (get >>= f) := by
  intro w
  rw [run_bind_ok _ (run_get w)]
  exact hf w

theorem protect (h : Steady engine R) (t : Text) : Moves R (protect t) := by
  intro w
  rw [run_protect]
  exact h.vault w _

theorem arithmetic (h : Steady engine R) (e : Arithmetic.Expr) : Moves R (arithmetic e) := by
  refine get_bind fun w => ?_
  dsimp only
  split
  · cases e.eval w.context.definitions.scope with
    | ok x => exact h.refl w
    | error f => exact h.refl w
  · exact h.refl w

theorem expansion (h : Steady engine R) (d : Definition) (s : Slot) : Moves R (expansion d s) := by
  intro w
  rw [run_expansion]
  split
  · exact h.refl w
  next bound ws _ =>
    have hwarned := h.warn w ws
    dsimp only
    split
    · exact hwarned
    next t vault _ => exact h.trans hwarned (h.vault _ _)

theorem slot? (h : Steady engine R) (s : Slot) : Moves R (slot? engine s) := by
  unfold Rendering.slot?
  cases s.expr with
  | some e => exact h.bind (h.arithmetic e) fun _ => h.pure _
  | none =>
      refine get_bind fun w => ?_
      cases w.context.definitions.get? s.name with
      | some d => exact h.bind (h.expansion d s) (fun _ => h.pure _) w
      | none =>
          cases hf : engine.functions.get? s.name with
          | none => exact h.refl w
          | some f =>
              have hwarn : Moves R (Rendering.warn (f.argumentWarnings s.args)) := fun v => h.warn v _
              refine h.bind hwarn (fun _ => h.bind (h.call hf _) fun (t, attached) => ?_) w
              dsimp only
              split
              · exact h.bind (h.protect t) fun _ => h.pure _
              · exact h.bind (h.pure t) fun _ => h.pure _

theorem outcome (h : Steady engine R) (n : Node) : Moves R (outcome engine n) := by
  cases n with
  | text t => exact h.pure _
  | define d source => exact h.pure _
  | slot s source =>
      refine h.bind (h.slot? s) fun r => ?_
      cases r with
      | none => exact h.pure _
      | some r => exact h.pure _

theorem outcomes (h : Steady engine R) (ns : List Node) : Moves R (outcomes engine ns) := by
  induction ns with
  | nil => exact h.pure _
  | cons n ns ih => exact h.bind ih fun _ => h.bind (h.outcome n) fun _ => h.pure _

theorem defineAll (h : Steady engine R) (first : Bool) (ns : List Node) :
    Moves R (defineAll engine first ns) := by
  induction ns with
  | nil => exact h.pure _
  | cons n ns ih =>
      cases n with
      | text t => exact ih
      | slot s source => exact ih
      | define d source =>
          intro w
          rw [run_defineAll_define]
          split
          · exact ih w
          split
          · exact h.refl w
          next hname =>
            split
            · exact h.refl w
            next hfunction =>
              have henter : R w (Rendering.enter d w) :=
                h.enter (by simpa [NameMap.contains] using hname) (by simpa [NameMap.contains] using hfunction)
              exact h.trans henter (ih _)

end Steady
end Stencil.Rendering
