import Stencil.Proofs.Rendering.Literal
import Stencil.Proofs.Rendering.Moves
import Stencil.Proofs.Rendering.Redefinition

/-! # Attachments

A function is called with an empty list of attachments, and what it leaves there is the batch of its slot.
No step of a pass but the last one changes the list of the context (`steady_attachments`), and the last one
appends the batches in the order of the slots, though the calls were made from the last slot to the first
(`run_outcomes_batches`). So a pass appends all of its batches or, when it fails, nothing
(`attachments_in_order`). -/
set_option autoImplicit false
namespace Stencil

namespace Rendering

variable {α β : Type}

/-! ## What calls attach -/

def argumentsOf (f : Function) (s : Slot) (w : Work) : List Value :=
  (f.arrange s.args).map (Value.restored w.vault)

/-- The context that a function is given. It has no attachments. -/
def contextOf (f : Function) (s : Slot) (w : Work) : Context :=
  { w.context.warn (f.argumentWarnings s.args) with attachments := [] }

/-- The function that a slot calls. It has no expression and no name of the table. -/
def callee? (engine : Engine) (table : SymbolTable) (s : Slot) : Option Function :=
  if s.expr.isNone && !table.contains s.name then engine.functions.get? s.name else none

section

variable {engine : Engine} {table : SymbolTable} {s : Slot}

theorem callee?_of_expr {e : Arithmetic.Expr} (h : s.expr = some e) : callee? engine table s = none := by
  simp [callee?, h]

theorem callee?_of_get? {d : Definition} (h : table.get? s.name = some d) :
    callee? engine table s = none := by
  simp [callee?, NameMap.contains, h]

theorem callee?_of_free (hexpr : s.expr = none) (hname : table.get? s.name = none) :
    callee? engine table s = engine.functions.get? s.name := by
  simp [callee?, NameMap.contains, hexpr, hname]

end

/-- What a node attaches: if it is a slot that calls a function, the attachments that the call leaves. -/
def batch (engine : Engine) (w : Work) : Node → List Attachment
  | .text _ => []
  | .define _ _ => []
  | .slot s _ =>
    match callee? engine w.context.definitions s with
    | some f => (f.run (argumentsOf f s w) (contextOf f s w)).2.attachments
    | none => []

/-- The batches of the nodes in their order. A node is treated when all nodes behind it have been. -/
def batches (engine : Engine) (w : Work) : List Node → List (List Attachment)
  | [] => []
  | n :: rest => batch engine ((outcomes engine rest).run.run w).2 n :: batches engine w rest

def passBatches (engine : Engine) (first : Bool) (t : Text) (w : Work) : List (List Attachment) :=
  match parse t with
  | .ok nodes => batches engine ((defineAll engine first nodes).run.run w).2 nodes
  | .error _ => []

/-- The text and the work that a pass starts from: every pass but the first one stores new code. -/
def masked (first : Bool) (t : Text) (w : Work) : Text × Work :=
  if first then (t, w) else ((w.vault.mask t).1, { w with vault := (w.vault.mask t).2 })

def completed (engine : Engine) : Nat → Bool → Text → Work → List (List (List Attachment))
  | 0, _, _, _ => []
  | n + 1, first, t, w =>
    match (pass engine first (masked first t w).1).run.run (masked first t w).2 with
    | (.ok (u, changed), w') => passBatches engine first (masked first t w).1 (masked first t w).2 ::
        if changed then completed engine n false u w' else []
    | (.error _, _) => []

/-! ## Steps that attach nothing -/

/-- A call gives what the function left in its own list, and puts the list that was there back. -/
theorem run_call (f : Function) (args : List Value) (w : Work) :
    (call f args).run.run w =
      let (result, after) := f.run (args.map (Value.restored w.vault))
        { w.context with attachments := [] }
      (result.map (·, after.attachments),
        { w with context := { after with attachments := w.context.attachments } }) := by
  rw [Value.restored_eq, call, run_bind_ok _ (run_get w)]
  generalize args.map _ = values
  dsimp only
  cases (f.run values { w.context with attachments := [] }).1 <;> rfl

/-- The list of attachments stays as it was. -/
theorem steady_attachments (engine : Engine) :
    Steady engine fun w w' => w'.context.attachments = w.context.attachments where
  refl _ := rfl
  trans h h' := h'.trans h
  vault _ _ := rfl
  warn _ _ := rfl
  call _ args w := by rw [run_call]
  enter _ _ := rfl

/-! ## Batches -/

theorem batch_of_none {engine : Engine} {s : Slot} {w : Work} (source : Text)
    (h : callee? engine w.context.definitions s = none) : batch engine w (.slot s source) = [] := by
  rw [batch, h]

theorem batch_of_some {engine : Engine} {s : Slot} {w : Work} {f : Function} (source : Text)
    (h : callee? engine w.context.definitions s = some f) : batch engine w (.slot s source) =
      (f.run (argumentsOf f s w) (contextOf f s w)).2.attachments := by
  rw [batch, h]

/-- What a call hands on is what the function left in its list. -/
theorem attached_of_run_call {f : Function} {args : List Value} {w w' : Work} {t : Text}
    {attached : List Attachment} (h : (call f args).run.run w = (.ok (t, attached), w')) :
    attached = (f.run (args.map (Value.restored w.vault))
      { w.context with attachments := [] }).2.attachments := by
  rw [run_call] at h
  cases hrun : f.run (args.map (Value.restored w.vault)) { w.context with attachments := [] } with
  | mk result after =>
      rw [hrun] at h
      cases result with
      | error e => cases (Prod.mk.inj h).1
      | ok t => exact (Prod.mk.inj (Except.ok.inj (Prod.mk.inj h).1)).2.symm

/-- A slot that stays or that the table replaces attaches nothing, one that calls a function attaches what
the function does. -/
theorem run_slot?_batch {engine : Engine} {s : Slot} {w w' : Work}
    {r : Option (Text × List Attachment)} (source : Text)
    (h : (slot? engine s).run.run w = (.ok r, w')) :
    (r.map Prod.snd).getD [] = batch engine w (.slot s source) := by
  unfold slot? at h
  cases hexpr : s.expr with
  | some e =>
      rw [batch_of_none source (callee?_of_expr hexpr)]
      rw [hexpr] at h
      obtain ⟨x, v, -, h⟩ := exists_of_run_bind h
      obtain rfl := Except.ok.inj (Prod.mk.inj h).1
      cases x <;> rfl
  | none =>
      rw [hexpr] at h
      dsimp only at h
      rw [run_bind_ok _ (run_get w)] at h
      cases hname : w.context.definitions.get? s.name with
      | some d =>
          rw [batch_of_none source (callee?_of_get? hname)]
          rw [hname] at h
          obtain ⟨x, v, -, h⟩ := exists_of_run_bind h
          obtain rfl := Except.ok.inj (Prod.mk.inj h).1
          rfl
      | none =>
          have hcallee : callee? engine w.context.definitions s = engine.functions.get? s.name :=
            callee?_of_free hexpr hname
          rw [hname] at h
          cases hf : engine.functions.get? s.name with
          | none =>
              rw [batch_of_none source (hcallee.trans hf)]
              rw [hf] at h
              obtain rfl := Except.ok.inj (Prod.mk.inj h).1
              rfl
          | some f =>
              rw [batch_of_some source (hcallee.trans hf)]
              rw [hf] at h
              dsimp only at h
              rw [run_bind_ok _ (run_warn _ w)] at h
              obtain ⟨⟨t, attached⟩, v, hcall, h⟩ := exists_of_run_bind h
              have hr : r.map Prod.snd = some attached := by
                by_cases hraw : s.raw = true
                · rw [if_pos hraw] at h
                  obtain ⟨x, u, -, h⟩ := exists_of_run_bind h
                  obtain rfl := Except.ok.inj (Prod.mk.inj h).1
                  rfl
                · rw [if_neg hraw] at h
                  obtain ⟨x, u, -, h⟩ := exists_of_run_bind h
                  obtain rfl := Except.ok.inj (Prod.mk.inj h).1
                  rfl
              rw [hr]
              exact attached_of_run_call hcall

theorem run_outcome_batch {engine : Engine} {n : Node} {w w' : Work} {o : Outcome}
    (h : (outcome engine n).run.run w = (.ok o, w')) : o.attachments = batch engine w n := by
  cases n with
  | text t =>
      obtain ⟨h, -⟩ := Prod.mk.inj h
      obtain rfl := Except.ok.inj h
      rfl
  | define d source =>
      obtain ⟨h, -⟩ := Prod.mk.inj h
      obtain rfl := Except.ok.inj h
      rfl
  | slot s source =>
      obtain ⟨r, v, hslot, h⟩ := exists_of_run_bind h
      rw [← run_slot?_batch source hslot]
      cases r with
      | none =>
          obtain rfl := Except.ok.inj (Prod.mk.inj h).1
          rfl
      | some r =>
          obtain rfl := Except.ok.inj (Prod.mk.inj h).1
          rfl

/-- The slots are treated from the last one to the first, and the batches stand in the order of the slots. -/
theorem run_outcomes_batches {engine : Engine} : ∀ {ns : List Node} {w w' : Work}
    {done : List Outcome}, (outcomes engine ns).run.run w = (.ok done, w') →
    done.map Outcome.attachments = batches engine w ns := by
  intro ns
  induction ns with
  | nil =>
      intro w w' done h
      obtain ⟨h, -⟩ := Prod.mk.inj h
      obtain rfl := Except.ok.inj h
      rfl
  | cons n ns ih =>
      intro w w' done h
      obtain ⟨later, v, hlater, h⟩ := exists_of_run_bind h
      obtain ⟨o, v', ho, h⟩ := exists_of_run_bind h
      obtain ⟨h, -⟩ := Prod.mk.inj h
      obtain rfl := Except.ok.inj h
      rw [List.map_cons, batches, ih hlater, run_outcome_batch ho, hlater]

/-! ## Passes -/

theorem run_replaceAll_attachments (engine : Engine) (ns : List Node) (w : Work) :
    match (replaceAll engine ns).run.run w with
    | (.ok _, w') =>
      w'.context.attachments = w.context.attachments ++ (batches engine w ns).flatten
    | (.error _, w') => w'.context.attachments = w.context.attachments := by
  have hkeeps := (steady_attachments engine).outcomes ns w
  rw [replaceAll, run_bind]
  cases hdone : (outcomes engine ns).run.run w with
  | mk r v =>
      rw [hdone] at hkeeps
      cases r with
      | error e => exact hkeeps
      | ok done =>
          have hbatches := run_outcomes_batches hdone
          show v.context.attachments ++ done.flatMap Outcome.attachments = _
          rw [hkeeps, List.flatMap_def, hbatches]

theorem passBatches_of_parse {engine : Engine} {first : Bool} {t : Text} {ns : List Node} {w : Work}
    (h : parse t = .ok ns) : passBatches engine first t w =
      batches engine ((defineAll engine first ns).run.run w).2 ns := by
  rw [passBatches, h]

/-- A pass that succeeds appends its batches, one that fails appends nothing. -/
theorem run_pass_attachments (engine : Engine) (first : Bool) (t : Text) (w : Work) :
    match (pass engine first t).run.run w with
    | (.ok _, w') => w'.context.attachments =
        w.context.attachments ++ (passBatches engine first t w).flatten
    | (.error _, w') => w'.context.attachments = w.context.attachments := by
  cases ht : parse t with
  | error e =>
      rw [pass, ht]
      rfl
  | ok ns =>
      have hdefine := (steady_attachments engine).defineAll first ns w
      rw [pass_of_parse ht, passBatches_of_parse ht, run_bind]
      cases hrun : (defineAll engine first ns).run.run w with
      | mk r v =>
          rw [hrun] at hdefine
          change v.context.attachments = w.context.attachments at hdefine
          cases r with
          | error e => exact hdefine
          | ok u =>
              have hreplace := run_replaceAll_attachments engine ns v
              rw [hdefine] at hreplace
              exact hreplace

theorem run_passes_succ (engine : Engine) (n : Nat) (first : Bool) (t : Text) (w : Work) :
    (passes engine (n + 1) first t).run.run w =
      (pass engine first (masked first t w).1 >>= fun (u, changed) =>
        if changed then passes engine n false u else return u).run.run (masked first t w).2 := by
  cases first with
  | true => rw [passes_first]; rfl
  | false => rw [passes_later, run_bind_ok _ (run_mask t w)]; rfl

theorem run_passes_attachments (engine : Engine) : ∀ (n : Nat) (first : Bool) (t : Text) (w : Work),
    ((passes engine n first t).run.run w).2.context.attachments =
      w.context.attachments ++ (completed engine n first t w).flatten.flatten := by
  intro n
  induction n with
  | zero => intro first t w; exact (List.append_nil _).symm
  | succ n ih =>
      intro first t w
      have hpass := run_pass_attachments engine first (masked first t w).1 (masked first t w).2
      have hmasked : (masked first t w).2.context = w.context := by cases first <;> rfl
      rw [run_passes_succ, run_bind, completed]
      cases hrun : (pass engine first (masked first t w).1).run.run (masked first t w).2 with
      | mk r v =>
          rw [hrun, hmasked] at hpass
          cases r with
          | error e => exact hpass.trans (List.append_nil _).symm
          | ok result =>
              obtain ⟨u, changed⟩ := result
              change v.context.attachments = _ at hpass
              cases changed with
              | false =>
                  show v.context.attachments = w.context.attachments ++
                    [passBatches engine first (masked first t w).1 (masked first t w).2].flatten.flatten
                  rw [List.flatten_singleton]
                  exact hpass
              | true =>
                  show ((passes engine n false u).run.run v).2.context.attachments =
                    w.context.attachments ++ (passBatches engine first (masked first t w).1
                      (masked first t w).2 :: completed engine n false u v).flatten.flatten
                  rw [List.flatten_cons, List.flatten_append, ← List.append_assoc, ← hpass]
                  exact ih false u v

end Rendering

namespace Engine

open Rendering

/-- A pass that succeeds appends the batches of its slots in the order of the slots, one that fails leaves the
list as it was. So a rendering appends the batches of the passes that it completes, pass by pass; it appends
nothing when it only lists the slots. -/
theorem attachments_in_order (engine : Engine) :
    (∀ (first : Bool) (t : Text) (w : Work),
      match (pass engine first t).run.run w with
      | (.ok _, w') => w'.context.attachments =
          w.context.attachments ++ (passBatches engine first t w).flatten
      | (.error _, w') => w'.context.attachments = w.context.attachments) ∧
    ∀ (t : Text) (c : Context), (engine.render t c).2.attachments =
      c.attachments ++ if c.options.matchesOnly then [] else
        (completed engine maxPasses true (prepare t).1 ⟨c, (prepare t).2⟩).flatten.flatten := by
  refine ⟨run_pass_attachments engine, fun t c => ?_⟩
  cases hc : c.options.matchesOnly with
  | true =>
      rw [if_pos rfl, List.append_nil, render_slots engine t hc]
  | false =>
      rw [if_neg Bool.false_ne_true, render, run_whole engine t hc, run_bind]
      have hpasses := run_passes_attachments engine maxPasses true (prepare t).1 ⟨c, (prepare t).2⟩
      cases hrun : (passes engine maxPasses true (prepare t).1).run.run ⟨c, (prepare t).2⟩ with
      | mk r v =>
          rw [hrun] at hpasses
          cases r <;> exact hpasses

def tagging : Function where
  name := "tag".toList
  params := ["name".toList]
  run
    | [.text t], c => (.ok t, { c with attachments := c.attachments ++ [.url t] })
    | _, c => (.error (.function "tag".toList []), c)

def taggingEngine : Engine := { functions := NameMap.insert {} tagging.name tagging }

example : (taggingEngine.render
    (bracketed "[d][[tag(\"b\")]][/d][[tag(\"a\")]][[d]][[tag(\"c\")]]") {}).2.attachments =
      [.url ['a'], .url ['c'], .url ['b']] := by decide +kernel

end Engine
end Stencil
