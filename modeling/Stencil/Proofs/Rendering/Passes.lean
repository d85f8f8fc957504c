import Stencil.Proofs.Rendering.Steps
import Stencil.Proofs.Tag.Tiling
import Stencil.Proofs.Text.Edits

/-! # Passes node by node

A pass collects its edits in an order of its own, the definitions from left to right and then the slots from
right to left. They are the edits of a row of patches, one for each node (`edits_perm`), so the new text is
what the nodes become, one after the other (`pass_of_parse`). -/
set_option autoImplicit false
namespace Stencil.Rendering

variable {engine : Engine}

/-- The part of a pass that comes after its definitions. -/
def replaceAll (engine : Engine) (nodes : List Node) : Rendering (Text × Bool) := do
  let done ← outcomes engine nodes
  let attached := done.flatMap Outcome.attachments
  modify fun w =>
    { w with context := { w.context with attachments := w.context.attachments ++ attached } }
  return (done.flatMap Outcome.text, done.any Outcome.changed)

/-! ## Outcomes -/

/-- Without a change the text of the outcome is the source of the node. -/
def Fits (n : Node) (o : Outcome) : Prop := o.changed = false → o.text = n.source

def patch (n : Node) (o : Outcome) : Patch := ⟨n.source, if o.changed then some o.text else none⟩

theorem exists_of_run_outcome_slot {s : Slot} {source : Text} {o : Outcome} {w w' : Work}
    (h : (outcome engine (.slot s source)).run.run w = (.ok o, w')) :
    ∃ r, (slot? engine s).run.run w = (.ok r, w') ∧
      patch (.slot s source) o = ⟨source, r.map Prod.fst⟩ ∧ Fits (.slot s source) o := by
  obtain ⟨r, v, hr, h⟩ := exists_of_run_bind h
  cases r with
  | none =>
      obtain ⟨heq, rfl⟩ := Prod.mk.inj h
      obtain rfl := Except.ok.inj heq
      exact ⟨none, hr, rfl, fun _ => rfl⟩
  | some r =>
      obtain ⟨heq, rfl⟩ := Prod.mk.inj h
      obtain rfl := Except.ok.inj heq
      exact ⟨some r, hr, rfl, nofun⟩

theorem fits_of_run_outcome {n : Node} {o : Outcome} {w w' : Work}
    (h : (outcome engine n).run.run w = (.ok o, w')) : Fits n o := by
  cases n with
  | text source =>
      obtain rfl := Except.ok.inj (Prod.mk.inj h).1
      exact fun _ => rfl
  | define d source =>
      obtain rfl := Except.ok.inj (Prod.mk.inj h).1
      exact nofun
  | slot s source =>
      obtain ⟨r, -, -, hfits⟩ := exists_of_run_outcome_slot h
      exact hfits

theorem fits_of_run_outcomes : ∀ {ns : List Node} {done : List Outcome} {w w' : Work},
    (outcomes engine ns).run.run w = (.ok done, w') → List.Forall₂ Fits ns done := by
  intro ns
  induction ns with
  | nil =>
      intro done w w' h
      obtain rfl := Except.ok.inj (Prod.mk.inj h).1
      exact .nil
  | cons n ns ih =>
      intro done w w' h
      obtain ⟨later, v, hlater, h⟩ := exists_of_run_bind h
      obtain ⟨o, v', ho, h⟩ := exists_of_run_bind h
      obtain rfl := Except.ok.inj (Prod.mk.inj h).1
      exact .cons (fits_of_run_outcome ho) (ih hlater)

/-! ## Patches -/

def patches (ns : List Node) (done : List Outcome) : List Patch := List.zipWith patch ns done

theorem text_patch {n : Node} {o : Outcome} (h : Fits n o) : (patch n o).text = o.text := by
  unfold patch Patch.text
  cases hchanged : o.changed with
  | false => exact (h hchanged).symm
  | true => rfl

variable {ns : List Node} {done : List Outcome}

theorem flatMap_source_patches (h : List.Forall₂ Fits ns done) :
    (patches ns done).flatMap Patch.source = ns.flatMap Node.source := by
  induction h with
  | nil => rfl
  | cons _ _ ih => exact congrArg (_ ++ ·) ih

theorem flatMap_text_patches (h : List.Forall₂ Fits ns done) :
    (patches ns done).flatMap Patch.text = done.flatMap Outcome.text := by
  induction h with
  | nil => rfl
  | cons hfits _ ih =>
      rw [patches, List.zipWith_cons_cons, List.flatMap_cons, List.flatMap_cons, text_patch hfits]
      exact congrArg (_ ++ ·) ih

theorem replacement_patches (h : List.Forall₂ Fits ns done) :
    (∀ p ∈ patches ns done, p.replacement = none) ↔ done.any Outcome.changed = false := by
  induction h with
  | nil => simp [patches]
  | @cons n o ns done _ _ ih =>
      rw [patches, List.zipWith_cons_cons, List.forall_mem_cons, List.any_cons, Bool.or_eq_false_iff]
      exact and_congr (by cases hchanged : o.changed <;> simp [patch, hchanged]) ih

theorem proper_patches (h : List.Forall₂ Fits ns done) (hns : ∀ n ∈ ns, n.source ≠ []) :
    Patch.Proper (patches ns done) := by
  induction h with
  | nil => exact List.forall_mem_nil _
  | cons _ _ ih =>
      obtain ⟨hn, hns⟩ := List.forall_mem_cons.1 hns
      exact List.forall_mem_cons.2 ⟨fun _ => hn, ih hns⟩

/-! ## Edits -/

/-- The changes in order are the edits of the patches. -/
theorem map_filter_placedFrom (ns : List Node) : ∀ (offset : Nat) (done : List Outcome),
    ((((Node.placedFrom offset ns).zip done).filter fun p => p.2.changed).map fun p =>
      (⟨p.1.2, p.2.text⟩ : Edit)) = Patch.editsFrom offset (patches ns done) := by
  induction ns with
  | nil => intro offset done; rfl
  | cons n ns ih =>
      intro offset done
      cases done with
      | nil => rfl
      | cons o done =>
          rw [Node.placedFrom, List.zip_cons_cons, List.filter_cons, patches, List.zipWith_cons_cons,
            Patch.editsFrom, ← patches]
          cases hchanged : o.changed with
          | false => simpa [Patch.edit?, patch, hchanged] using ih _ done
          | true => simpa [Patch.edit?, patch, hchanged] using ih _ done

theorem edits_perm (ns : List Node) (done : List Outcome) :
    (edits ns done).Perm (Patch.editsFrom 0 (patches ns done)) := by
  rw [← map_filter_placedFrom, edits, List.partition_eq_filter_filter]
  exact (((List.reverse_perm _).append_left _).trans
    (List.perm_append_comm.trans (List.filter_append_perm _ _))).map _

theorem isEmpty_edits (h : List.Forall₂ Fits ns done) :
    (edits ns done).isEmpty = !done.any Outcome.changed := by
  rw [Bool.eq_iff_iff, List.isEmpty_iff, Bool.not_eq_true', ← replacement_patches h,
    ← Patch.editsFrom_eq_nil_iff]
  exact ⟨fun hnil => (hnil ▸ edits_perm ns done).nil_eq.symm,
    fun hnil => (hnil ▸ edits_perm ns done).eq_nil⟩

/-- In whatever order the edits of a pass are made, the text becomes what its nodes become. -/
theorem applyAll_edits {t : Text} {es : List Edit} (hns : parse t = .ok ns)
    (hdone : List.Forall₂ Fits ns done) (hes : es.Perm (edits ns done)) :
    Edit.applyAll t es = done.flatMap Outcome.text := by
  have hlocated := located_of_parse hns
  have hsource : (patches ns done).flatMap Patch.source = t :=
    (flatMap_source_patches hdone).trans hlocated.flatMap_source
  rw [← hsource, Patch.applyAll_of_perm (proper_patches hdone hlocated.source_ne_nil)
    (hes.trans (edits_perm ns done)), flatMap_text_patches hdone]

/-! ## Passes -/

theorem result_of_fits {t : Text} (hns : parse t = .ok ns) (hdone : List.Forall₂ Fits ns done) :
    (if (edits ns done).isEmpty then (t, false) else (Edit.applyAll t (edits ns done), true)) =
      (done.flatMap Outcome.text, done.any Outcome.changed) := by
  have htext := applyAll_edits hns hdone (.refl _)
  rw [isEmpty_edits hdone]
  cases hchanged : done.any Outcome.changed with
  | true => exact Prod.ext htext rfl
  | false =>
      have hnil : edits ns done = [] := by
        rw [← List.isEmpty_iff, isEmpty_edits hdone, hchanged]
        rfl
      rw [hnil] at htext
      exact Prod.ext htext rfl

theorem pass_of_parse {first : Bool} {t : Text} (h : parse t = .ok ns) :
    pass engine first t = defineAll engine first ns >>= fun _ => replaceAll engine ns := by
  refine ExceptT.ext (StateT.ext fun w => ?_)
  show (pass engine first t).run.run w =
    (defineAll engine first ns >>= fun _ => replaceAll engine ns).run.run w
  rw [pass, h]
  simp only [run_bind]
  cases (defineAll engine first ns).run.run w with
  | mk r v =>
      cases r with
      | error e => rfl
      | ok _ =>
          simp only [replaceAll, run_bind]
          cases hdone : (outcomes engine ns).run.run v with
          | mk r v' =>
              cases r with
              | error e => rfl
              | ok done =>
                  simp only [run_modify, run_pure, result_of_fits h (fits_of_run_outcomes hdone)]

end Stencil.Rendering
