import Stencil.Proofs.Rendering.Quiet
import Stencil.Proofs.Tag.Standing
import Stencil.Proofs.Substitution.Steps

/-! # Passes over plain templates

Where slots are names without arguments and definitions have no parameters, a pass cannot fail once its
definitions are entered (`run_outcomes_plain`). Each slot then becomes its value, or a placeholder for it,
or stays (`Shown`). -/
set_option autoImplicit false
namespace Stencil

open Vault (Restores placeholder)

def Slot.Plain (s : Slot) : Prop := s.expr = none ∧ s.args = []

def Definition.Plain (d : Definition) : Prop := d.required = [] ∧ d.optional = []

namespace SymbolTable

def shown (table : SymbolTable) (v : Vault) : Node → Text
  | .text s => v.restore s
  | .define _ _ => []
  | .slot s z =>
    match table.get? s.name with
    | some d => d.content
    | none => z

/-- What a pass over plain nodes gives, with the values of raw slots in the vault. -/
inductive Shown (table : SymbolTable) (v : Vault) : List Node → Text → Prop
  | nil : Shown table v [] []
  | text {s t : Text} {ns : List Node} : Shown table v ns t → Shown table v (.text s :: ns) (s ++ t)
  | define {d : Definition} {source : DefinitionSource} {t : Text} {ns : List Node} :
      Shown table v ns t → Shown table v (.define d source :: ns) t
  | stays {s : Slot} {z t : Text} {ns : List Node} : table.get? s.name = none →
      Shown table v ns t → Shown table v (.slot s z :: ns) (z ++ t)
  | value {s : Slot} {d : Definition} {z t : Text} {ns : List Node} : table.get? s.name = some d →
      Shown table v ns t → Shown table v (.slot s z :: ns) (d.content ++ t)
  | mark {s : Slot} {d : Definition} {i : Nat} {z t : Text} {ns : List Node} :
      table.get? s.name = some d → v.segments[i]? = some d.content →
      Shown table v ns t → Shown table v (.slot s z :: ns) (placeholder i ++ t)

end SymbolTable

open SymbolTable (Shown)

theorem SymbolTable.Shown.extend {table : SymbolTable} {v w : Vault} {ns : List Node} {t : Text}
    (h : Shown table v ns t) (hw : v.segments <+: w.segments) : Shown table w ns t := by
  induction h with
  | nil => exact .nil
  | text _ ih => exact .text ih
  | define _ ih => exact .define ih
  | stays hs _ ih => exact .stays hs ih
  | value hs _ ih => exact .value hs ih
  | mark hs hi _ ih => exact .mark hs (Vault.getElem?_of_grow hw _ _ hi) ih

/-- What is shown stands for the output. -/
theorem SymbolTable.Shown.restores {table : SymbolTable} {v w : Vault} {ns : List Node} {t : Text}
    (h : Shown table w ns t) (hgrow : v.segments <+: w.segments)
    (htable : ∀ name d, table.get? name = some d → placeholderOpen ∉ d.content) :
    (∀ s, .text s ∈ ns → v.Stands False s) →
    (∀ s z, .slot s z ∈ ns → placeholderOpen ∉ z) →
    Restores w w.segments.length t (ns.flatMap (table.shown v)) := by
  induction h with
  | nil => intro _ _; exact .nil
  | @text s t ns _ ih =>
      intro htexts hslots
      obtain ⟨q, hq, -⟩ := htexts s (List.mem_cons_self ..)
      have hown := (hq.extend (Vault.getElem?_of_grow hgrow)).mono hgrow.length_le
      rw [List.flatMap_cons, shown, Vault.restore_of_restores hq (Nat.le_refl _)]
      exact hown.append (ih (fun s hs => htexts s (List.mem_cons_of_mem _ hs))
        fun s z hs => hslots s z (List.mem_cons_of_mem _ hs))
  | define _ ih =>
      intro htexts hslots
      exact ih (fun s hs => htexts s (List.mem_cons_of_mem _ hs))
        fun s z hs => hslots s z (List.mem_cons_of_mem _ hs)
  | @stays s z t ns hname _ ih =>
      intro htexts hslots
      have hz := hslots s z (List.mem_cons_self ..)
      rw [List.flatMap_cons, shown, hname]
      exact (Restores.of_not_mem hz).append (ih (fun s hs => htexts s (List.mem_cons_of_mem _ hs))
        fun s z hs => hslots s z (List.mem_cons_of_mem _ hs))
  | @value s d z t ns hname _ ih =>
      intro htexts hslots
      rw [List.flatMap_cons, shown, hname]
      exact (Restores.of_not_mem (htable _ _ hname)).append
        (ih (fun s hs => htexts s (List.mem_cons_of_mem _ hs))
          fun s z hs => hslots s z (List.mem_cons_of_mem _ hs))
  | @mark s d i z t ns hname hi _ ih =>
      intro htexts hslots
      obtain ⟨hlt, -⟩ := List.getElem?_eq_some_iff.1 hi
      rw [List.flatMap_cons, shown, hname]
      exact .mark hlt hi (Restores.of_not_mem (htable _ _ hname))
        (ih (fun s hs => htexts s (List.mem_cons_of_mem _ hs))
          fun s z hs => hslots s z (List.mem_cons_of_mem _ hs))

/-! ## Running a pass -/

namespace Rendering

theorem run_expansion_plain {d : Definition} {s : Slot} (hd : d.Plain) (hs : s.args = []) (w : Work) :
    (expansion d s).run.run w =
      if (d.raw || s.raw) = true then
        (.ok (placeholder w.vault.segments.length),
          { w with vault := (w.vault.protect d.content).2 })
      else (.ok d.content, w) := by
  obtain ⟨hrequired, hoptional⟩ := hd
  have hbind : d.bind s.args = .ok ([], []) := by
    rw [hs]
    unfold Definition.bind
    rw [hrequired, hoptional]
    rfl
  have hexpand : d.expand [] w.vault = .ok (d.content, w.vault) := by
    unfold Definition.expand substitute
    rw [Substitution.toDepth_nil, ite_self]
  have hwarn : w.context.warn [] = w.context := by rw [Context.warn, List.append_nil]
  rw [run_expansion, hbind]
  simp only [hwarn, hexpand]
  by_cases hraw : (d.raw || s.raw) = true
  · simp only [if_pos hraw]
  · simp only [if_neg hraw]

theorem run_slot?_plain {s : Slot} {d : Definition} {w : Work} (hs : s.Plain) (hd : d.Plain)
    (hname : w.context.definitions.get? s.name = some d) : (slot? {} s).run.run w =
      if (d.raw || s.raw) = true then
        (.ok (some (placeholder w.vault.segments.length, [])),
          { w with vault := (w.vault.protect d.content).2 })
      else (.ok (some (d.content, [])), w) := by
  unfold slot?
  rw [hs.1]
  simp only
  rw [run_bind_ok _ (run_get w), hname]
  simp only
  rw [run_bind, run_expansion_plain hd hs.2]
  by_cases hraw : (d.raw || s.raw) = true
  · rw [if_pos hraw, if_pos hraw]
    rfl
  · rw [if_neg hraw, if_neg hraw]
    rfl

theorem run_outcome_of_some {engine : Engine} {s : Slot} {z t : Text} {attachments : List Attachment}
    {w w' : Work} (h : (slot? engine s).run.run w = (.ok (some (t, attachments)), w')) :
    (outcome engine (.slot s z)).run.run w = (.ok { text := t, changed := true, attachments }, w') := by
  rw [outcome, run_bind_ok _ h]
  rfl

theorem run_outcomes_plain : ∀ {ns : List Node} {w : Work},
    (∀ s z, .slot s z ∈ ns → s.Plain) →
    (∀ name d, w.context.definitions.get? name = some d → d.Plain) →
    ∃ done w', (outcomes {} ns).run.run w = (.ok done, w') ∧ w'.context = w.context ∧
      w.vault.segments <+: w'.vault.segments ∧
      Shown w.context.definitions w'.vault ns (done.flatMap Outcome.text) ∧
      done.flatMap Outcome.attachments = [] := by
  intro ns
  induction ns with
  | nil => intro w _ _; exact ⟨[], w, rfl, rfl, List.prefix_refl _, .nil, rfl⟩
  | cons n ns ih =>
      intro w hslots htable
      -- the nodes behind run first: what they stored is in the vault before this one stores anything
      obtain ⟨later, w₁, hlater, hcontext, hgrow, hshown, hattached⟩ :=
        ih (fun s z hs => hslots s z (List.mem_cons_of_mem _ hs)) htable
      have hstep : ∀ {o : Outcome} {w₂ : Work}, (outcome {} n).run.run w₁ = (.ok o, w₂) →
          (outcomes {} (n :: ns)).run.run w = (.ok (o :: later), w₂) := by
        intro o w₂ ho
        rw [outcomes, run_bind_ok _ hlater, run_bind_ok _ ho]
        rfl
      cases n with
      | text s => exact ⟨_, w₁, hstep rfl, hcontext, hgrow, .text hshown, hattached⟩
      | define d source => exact ⟨_, w₁, hstep rfl, hcontext, hgrow, .define hshown, hattached⟩
      | slot s z =>
          have hs := hslots s z (List.mem_cons_self ..)
          cases hname : w.context.definitions.get? s.name with
          | none =>
              have hleaves : w₁.context.definitions.leaves (.slot s z) = true := by
                simp [SymbolTable.leaves, SymbolTable.replaces, hs.1, hcontext, NameMap.contains, hname]
              exact ⟨_, w₁, hstep (run_outcome_of_leaves ((Engine.leaves_empty _ _).trans hleaves)),
                hcontext, hgrow, .stays hname hshown, hattached⟩
          | some d =>
              have hrun := run_slot?_plain hs (htable _ _ hname) (w := w₁) (by rw [hcontext, hname])
              by_cases hraw : (d.raw || s.raw) = true
              · rw [if_pos hraw] at hrun
                have hmore : w₁.vault.segments <+: (w₁.vault.protect d.content).2.segments :=
                  List.prefix_append ..
                have hstored : (w₁.vault.protect d.content).2.segments[w₁.vault.segments.length]? =
                    some d.content := by simp [Vault.protect]
                exact ⟨_, _, hstep (run_outcome_of_some hrun), hcontext, hgrow.trans hmore,
                  .mark hname hstored (hshown.extend hmore), hattached⟩
              · rw [if_neg hraw] at hrun
                exact ⟨_, w₁, hstep (run_outcome_of_some hrun), hcontext, hgrow,
                  .value hname hshown, hattached⟩

end Rendering
end Stencil
