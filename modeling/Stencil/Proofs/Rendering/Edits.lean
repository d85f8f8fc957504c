import Stencil.Proofs.Rendering.Passes
import Stencil.Proofs.Substitution.Depth

/-! # What edits do to a template

A pass and a substitution change a text by the same kind of edits. For both of them the nodes give a row of
patches whose sources are the text: what is no tag stays, and so does a slot without a value. The new text is
that of the patches, in whatever order they were collected (`patched_of_edits`). -/
set_option autoImplicit false
namespace Stencil

open Rendering

/-- What becomes of nodes from a state on, each slot in the state that those behind it leave. -/
inductive Treated (engine : Engine) (w : Work) : List Node → List Patch → Work → Prop
  | nil : Treated engine w [] [] w
  | text {ns : List Node} {ps : List Patch} {w' : Work} {source : Text} : Treated engine w ns ps w' →
      Treated engine w (.text source :: ns) (⟨source, none⟩ :: ps) w'
  | define {ns : List Node} {ps : List Patch} {w' : Work} {d : Definition} {source : DefinitionSource} :
      Treated engine w ns ps w' →
      Treated engine w (.define d source :: ns) (⟨source.text, some []⟩ :: ps) w'
  | slot {ns : List Node} {ps : List Patch} {v w' : Work} {s : Slot} {source : Text}
      {r : Option (Text × List Attachment)} : Treated engine w ns ps v →
      (slot? engine s).run.run v = (.ok r, w') →
      Treated engine w (.slot s source :: ns) (⟨source, r.map Prod.fst⟩ :: ps) w'

namespace Rendering

variable {engine : Engine}

theorem treated_cons {n : Node} {ns : List Node} {o : Outcome} {ps : List Patch} {w v w' : Work}
    (hns : Treated engine w ns ps v) (h : (outcome engine n).run.run v = (.ok o, w')) :
    Treated engine w (n :: ns) (patch n o :: ps) w' := by
  cases n with
  | text source =>
      obtain ⟨heq, rfl⟩ := Prod.mk.inj h
      obtain rfl := Except.ok.inj heq
      exact .text hns
  | define d source =>
      obtain ⟨heq, rfl⟩ := Prod.mk.inj h
      obtain rfl := Except.ok.inj heq
      exact .define hns
  | slot s source =>
      obtain ⟨r, hr, hpatch, -⟩ := exists_of_run_outcome_slot h
      rw [hpatch]
      exact .slot hns hr

theorem treated_of_run_outcomes : ∀ {ns : List Node} {done : List Outcome} {w w' : Work},
    (outcomes engine ns).run.run w = (.ok done, w') → Treated engine w ns (patches ns done) w' := by
  intro ns
  induction ns with
  | nil =>
      intro done w w' h
      obtain ⟨-, rfl⟩ := Prod.mk.inj h
      exact .nil
  | cons n ns ih =>
      intro done w w' h
      obtain ⟨later, v, hlater, h⟩ := exists_of_run_bind h
      obtain ⟨o, v', ho, h⟩ := exists_of_run_bind h
      obtain ⟨heq, rfl⟩ := Prod.mk.inj h
      obtain rfl := Except.ok.inj heq
      exact treated_cons (ih hlater) ho

/-- A pass that succeeds: the definitions are entered, the slots treated, and then the edits made. -/
theorem patched_of_run_pass {first changed : Bool} {t u : Text} {w w' : Work}
    (h : (pass engine first t).run.run w = (.ok (u, changed), w')) :
    ∃ nodes entered done ps after, parse t = .ok nodes ∧
      (defineAll engine first nodes).run.run w = (.ok (), entered) ∧
      (outcomes engine nodes).run.run entered = (.ok done, after) ∧
      Treated engine entered nodes ps after ∧ Patched ps (edits nodes done) t u ∧
      (changed = false ↔ ∀ p ∈ ps, p.replacement = none) := by
  cases hns : parse t with
  | error e =>
      rw [pass, hns] at h
      cases (Prod.mk.inj h).1
  | ok ns =>
      rw [pass_of_parse hns] at h
      obtain ⟨_, entered, hentered, h⟩ := exists_of_run_bind h
      obtain ⟨done, after, hdone, h⟩ := exists_of_run_bind h
      obtain ⟨_, _, -, h⟩ := exists_of_run_bind h
      obtain ⟨rfl, rfl⟩ := Prod.mk.inj (Except.ok.inj (Prod.mk.inj h).1)
      have hfits := fits_of_run_outcomes hdone
      have hlocated := located_of_parse hns
      have hpatched := (proper_patches hfits hlocated.source_ne_nil).patched (edits_perm ns done)
      rw [flatMap_source_patches hfits, hlocated.flatMap_source, flatMap_text_patches hfits] at hpatched
      exact ⟨ns, entered, done, patches ns done, after, rfl, hentered, hdone, treated_of_run_outcomes hdone,
        hpatched, (replacement_patches hfits).symm⟩

end Rendering

namespace Substitution

/-- A substitution that succeeds, where there are names at all: its parts are substituted in the same way. -/
theorem patched_of_substitute {t u : Text} {bound : Bindings} {v w : Vault} (hbound : bound ≠ [])
    (h : substitute t bound v = .ok (u, w)) :
    ∃ nodes ps es, parse t = .ok nodes ∧ patchesAll substitute bound nodes v = .ok (ps, w) ∧
      edits substitute bound (Node.placedFrom 0 nodes) v = .ok (es, w) ∧ Patched ps es t u := by
  obtain ⟨ns, hns, hrun⟩ := exists_of_toDepth hbound h
  rw [nodes_eq, patchesAll_toDepth hns] at hrun
  cases hps : patchesAll substitute bound ns v with
  | error e => rw [hps] at hrun; cases hrun
  | ok r =>
      rw [hps] at hrun
      obtain ⟨rfl, rfl⟩ := Prod.mk.inj (Except.ok.inj hrun)
      have hlocated := located_of_parse hns
      have hproper := proper_of_patchesAll keepsNil_substitute hlocated.source_ne_nil hps
      have hpatched := hproper.patched (.refl _)
      rw [flatMap_source_of_patchesAll hps, hlocated.flatMap_source] at hpatched
      refine ⟨ns, r.1, Patch.editsFrom 0 r.1, hns, hps, ?_, hpatched⟩
      rw [edits_placedFrom, hps]
      rfl

end Substitution

/-- A pass makes patches of the tags of the text, and says so unless nothing is replaced. A substitution makes
patches of slots and of the contents of definitions; for no names it makes none. -/
theorem patched_of_edits (engine : Engine) (first : Bool) (t content : Text) (w : Work) (bound : Bindings)
    (v : Vault) :
    (∀ u changed w', (pass engine first t).run.run w = (.ok (u, changed), w') →
      ∃ nodes entered done ps after, parse t = .ok nodes ∧
        (defineAll engine first nodes).run.run w = (.ok (), entered) ∧
        (outcomes engine nodes).run.run entered = (.ok done, after) ∧
        Treated engine entered nodes ps after ∧ Patched ps (edits nodes done) t u ∧
        (changed = false ↔ ∀ p ∈ ps, p.replacement = none)) ∧
    ∀ u v', substitute content bound v = .ok (u, v') →
      bound = [] ∧ u = content ∧ v' = v ∨
      ∃ nodes ps es, parse content = .ok nodes ∧
        Substitution.patchesAll substitute bound nodes v = .ok (ps, v') ∧
        Substitution.edits substitute bound (Node.placedFrom 0 nodes) v = .ok (es, v') ∧
        Patched ps es content u := by
  refine ⟨fun u changed w' h => patched_of_run_pass h, fun u v' h => ?_⟩
  by_cases hbound : bound = []
  · subst hbound
    rw [substitute, Substitution.toDepth_nil] at h
    obtain ⟨rfl, rfl⟩ := Prod.mk.inj (Except.ok.inj h)
    exact .inl ⟨rfl, rfl, rfl⟩
  · exact .inr (Substitution.patched_of_substitute hbound h)

def greeting : Text := bracketed "[x = \"a\"]\n[[u]] [[x]], [[x]]!"

def greetingContent : Text := bracketed "[z][[y]][/z]-[[y]][[q]]"

theorem patched_of_edits_greeting : ∃ w' nodes ps es,
    (pass {} true greeting).run.run ⟨{}, .empty⟩ = (.ok (bracketed "[[u]] a, a!", true), w') ∧
    parse greeting = .ok nodes ∧ Patched ps es greeting (bracketed "[[u]] a, a!") ∧
    (∃ p ∈ ps, p.replacement ≠ none) ∧
    substitute greetingContent [(['y'], .number 7)] .empty =
      .ok (bracketed "[z]7[/z]-7[[q]]", .empty) ∧
    ∃ ps es, Patched ps es greetingContent (bracketed "[z]7[/z]-7[[q]]") := by
  have hrun : ((pass {} true greeting).run.run ⟨{}, .empty⟩).1 =
      .ok (bracketed "[[u]] a, a!", true) := by decide +kernel
  have hsubstitute : substitute greetingContent [(['y'], .number 7)] .empty =
      .ok (bracketed "[z]7[/z]-7[[q]]", .empty) := by decide +kernel
  obtain ⟨hpass, hcontent⟩ :=
    patched_of_edits {} true greeting greetingContent ⟨{}, .empty⟩ [(['y'], .number 7)] .empty
  obtain ⟨nodes, entered, done, ps, after, hnodes, -, -, -, hpatched, hchanged⟩ :=
    hpass _ _ _ (Prod.ext hrun rfl)
  obtain ⟨hnil, -⟩ | ⟨-, qs, es, -, -, -, hinside⟩ := hcontent _ _ hsubstitute
  · cases hnil
  · refine ⟨_, nodes, ps, edits nodes done, Prod.ext hrun rfl, hnodes, hpatched, ?_, hsubstitute,
      qs, es, hinside⟩
    by_contra hnone
    exact absurd (hchanged.2 (by simpa using hnone)) (by decide)

end Stencil
