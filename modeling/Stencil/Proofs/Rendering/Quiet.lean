import Stencil.Proofs.Rendering.Passes
import Stencil.Proofs.Tag.Parts

/-! # Quiet passes

A slot is replaced if the table or the registry has its name, or the table a number for each name of its
expression. A pass leaves a text as it is exactly when nothing in it is a definition or such a slot
(`run_pass_iff_leaves`). -/
set_option autoImplicit false
namespace Stencil

namespace SymbolTable

def replaces (table : SymbolTable) (s : Slot) : Bool :=
  match s.expr with
  | some e => e.names.all fun n => (table.scope n).isSome
  | none => table.contains s.name

/-- Whether a node stays as it is where there are no functions. -/
def leaves (table : SymbolTable) : Node → Bool
  | .text _ => true
  | .define _ _ => false
  | .slot s _ => !table.replaces s

end SymbolTable

namespace Engine

def replaces (engine : Engine) (table : SymbolTable) (s : Slot) : Bool :=
  table.replaces s || s.expr.isNone && engine.functions.contains s.name

def leaves (engine : Engine) (table : SymbolTable) : Node → Bool
  | .text _ => true
  | .define _ _ => false
  | .slot s _ => !engine.replaces table s

theorem replaces_empty (table : SymbolTable) (s : Slot) :
    ({} : Engine).replaces table s = table.replaces s := by
  simp [replaces, NameMap.contains, NameMap.get?]

theorem leaves_empty (table : SymbolTable) (n : Node) : ({} : Engine).leaves table n = table.leaves n := by
  cases n with
  | text s => rfl
  | define d source => rfl
  | slot s z => rw [leaves, SymbolTable.leaves, replaces_empty]

end Engine

namespace Rendering

variable {engine : Engine}

/-! ## Slots -/

theorem run_arithmetic (e : Arithmetic.Expr) (w : Work) :
    (arithmetic e).run.run w =
      if (e.names.all fun n => (w.context.definitions.scope n).isSome) = true then
        match e.eval w.context.definitions.scope with
        | .ok x => (.ok (some (formatNumber x)), w)
        | .error f => (.error (.eval f), w)
      else (.ok none, w) := by
  rw [arithmetic, run_bind_ok _ (run_get w)]
  by_cases hall : (e.names.all fun n => (w.context.definitions.scope n).isSome) = true
  · rw [if_pos hall, if_pos hall]
    cases e.eval w.context.definitions.scope <;> rfl
  · rw [if_neg hall, if_neg hall]
    rfl

theorem run_slot?_of_replaces {s : Slot} {w : Work}
    (h : engine.replaces w.context.definitions s = false) : (slot? engine s).run.run w = (.ok none, w) := by
  unfold Engine.replaces SymbolTable.replaces at h
  unfold slot?
  cases hexpr : s.expr with
  | some e =>
      rw [hexpr] at h
      have hrun : (arithmetic e).run.run w = (.ok none, w) := by
        rw [run_arithmetic, if_neg (by simpa using h)]
      rw [run_bind_ok _ hrun]
      rfl
  | none =>
      rw [hexpr] at h
      obtain ⟨hname, hfunction⟩ : w.context.definitions.get? s.name = none ∧
          engine.functions.get? s.name = none := by simpa [NameMap.contains] using h
      rw [run_bind_ok _ (run_get w), hname, hfunction]
      rfl

/-- Only slots that get no value stay. -/
theorem replaces_of_run_slot? {s : Slot} {w w' : Work} (h : (slot? engine s).run.run w = (.ok none, w')) :
    engine.replaces w.context.definitions s = false := by
  rw [Bool.eq_false_iff]
  intro hs
  unfold Engine.replaces SymbolTable.replaces at hs
  unfold slot? at h
  cases hexpr : s.expr with
  | some e =>
      simp only [hexpr, Option.isNone_some, Bool.false_and, Bool.or_false] at hs h
      obtain ⟨x, v, hx, hr⟩ := exists_of_run_bind h
      rw [run_arithmetic, if_pos hs] at hx
      cases heval : e.eval w.context.definitions.scope with
      | error f => rw [heval] at hx; cases (Prod.mk.inj hx).1
      | ok y =>
          rw [heval] at hx
          obtain rfl := Except.ok.inj (Prod.mk.inj hx).1
          cases Except.ok.inj (Prod.mk.inj hr).1
  | none =>
      simp only [hexpr, run_bind_ok _ (run_get w)] at h
      cases hd : w.context.definitions.get? s.name with
      | some d =>
          rw [hd] at h
          obtain ⟨t, v, -, hr⟩ := exists_of_run_bind h
          cases Except.ok.inj (Prod.mk.inj hr).1
      | none =>
          cases hf : engine.functions.get? s.name with
          | none => simp [hexpr, NameMap.contains, hd, hf] at hs
          | some f =>
              simp only [hd, hf] at h
              obtain ⟨_, v, -, h⟩ := exists_of_run_bind h
              obtain ⟨⟨t, attached⟩, v, -, h⟩ := exists_of_run_bind h
              split at h
              · obtain ⟨u, v, -, hr⟩ := exists_of_run_bind h
                cases Except.ok.inj (Prod.mk.inj hr).1
              · obtain ⟨u, v, -, hr⟩ := exists_of_run_bind h
                cases Except.ok.inj (Prod.mk.inj hr).1

/-! ## Nodes -/

theorem run_outcome_of_leaves {n : Node} {w : Work} (h : engine.leaves w.context.definitions n = true) :
    (outcome engine n).run.run w = (.ok { text := n.source }, w) := by
  cases n with
  | text s => rfl
  | define d source => cases h
  | slot s z =>
      have hs : engine.replaces w.context.definitions s = false := by simpa [Engine.leaves] using h
      rw [outcome, run_bind_ok _ (run_slot?_of_replaces hs)]
      rfl

theorem leaves_of_run_outcome {n : Node} {w w' : Work} {o : Outcome}
    (h : (outcome engine n).run.run w = (.ok o, w')) (ho : o.changed = false) :
    engine.leaves w.context.definitions n = true := by
  cases n with
  | text s => rfl
  | define d source =>
      obtain ⟨heq, -⟩ := Prod.mk.inj h
      obtain rfl := Except.ok.inj heq
      cases ho
  | slot s z =>
      rw [outcome] at h
      obtain ⟨r, v, hr, hrest⟩ := exists_of_run_bind h
      cases r with
      | none => rw [Engine.leaves, replaces_of_run_slot? hr, Bool.not_false]
      | some p =>
          obtain ⟨heq, -⟩ := Prod.mk.inj hrest
          obtain rfl := Except.ok.inj heq
          cases ho

theorem run_outcomes_of_leaves : ∀ {ns : List Node} {w : Work},
    (∀ n ∈ ns, engine.leaves w.context.definitions n = true) →
    (outcomes engine ns).run.run w = (.ok (ns.map fun n => { text := n.source }), w) := by
  intro ns
  induction ns with
  | nil => intro w _; rfl
  | cons n ns ih =>
      intro w h
      have hrest := ih fun m hm => h m (List.mem_cons_of_mem _ hm)
      have hfirst := run_outcome_of_leaves (h n (List.mem_cons_self ..))
      rw [outcomes, run_bind_ok _ hrest, run_bind_ok _ hfirst]
      rfl

theorem leaves_of_run_outcomes : ∀ {ns : List Node} {w w' : Work} {done : List Outcome},
    (outcomes engine ns).run.run w = (.ok done, w') → done.any Outcome.changed = false →
    ∀ n ∈ ns, engine.leaves w.context.definitions n = true := by
  intro ns
  induction ns with
  | nil => intro w w' done _ _ n hn; exact absurd hn (by simp)
  | cons first ns ih =>
      intro w w' done h hdone
      rw [outcomes] at h
      obtain ⟨later, v, hlater, h⟩ := exists_of_run_bind h
      obtain ⟨o, u, ho, h⟩ := exists_of_run_bind h
      obtain ⟨heq, rfl⟩ := Prod.mk.inj h
      obtain rfl := Except.ok.inj heq
      rw [List.any_cons, Bool.or_eq_false_iff] at hdone
      have hrest := ih hlater hdone.2
      -- what stays does not touch the state, so the first node finds the same table
      rw [run_outcomes_of_leaves hrest] at hlater
      obtain ⟨-, rfl⟩ := Prod.mk.inj hlater
      exact List.forall_mem_cons.2 ⟨leaves_of_run_outcome ho hdone.1, hrest⟩

theorem run_defineAll_of_leaves {first : Bool} {table : SymbolTable} {w : Work} :
    ∀ {ns : List Node}, (∀ n ∈ ns, engine.leaves table n = true) →
    (defineAll engine first ns).run.run w = (.ok (), w) := by
  intro ns
  induction ns with
  | nil => intro _; rfl
  | cons n ns ih =>
      intro h
      have hrest := ih fun m hm => h m (List.mem_cons_of_mem _ hm)
      cases n with
      | text s => exact hrest
      | slot s z => exact hrest
      | define d source => cases h _ (List.mem_cons_self ..)

/-! ## Passes -/

theorem run_pass_of_leaves {first : Bool} {t : Text} {ns : List Node} {w : Work}
    (ht : parse t = .ok ns) (h : ∀ n ∈ ns, engine.leaves w.context.definitions n = true) :
    (pass engine first t).run.run w = (.ok (t, false), w) := by
  have hsource : ns.flatMap Node.source = t := (located_of_parse ht).flatMap_source
  rw [pass_of_parse ht, run_bind_ok _ (run_defineAll_of_leaves h), replaceAll,
    run_bind_ok _ (run_outcomes_of_leaves h), run_bind_ok _ (run_modify ..), run_pure]
  have hattached : ns.flatMap (fun _ => ([] : List Attachment)) = [] :=
    List.flatMap_eq_nil_iff.2 fun _ _ => rfl
  have hchanged : (ns.any fun _ => false) = false := List.any_eq_false.2 fun _ _ => by simp
  simp [List.flatMap_map, hsource, hattached, Function.comp_def, hchanged]

theorem leaves_of_run_pass {first : Bool} {t u : Text} {w w' : Work}
    (h : (pass engine first t).run.run w = (.ok (u, false), w')) :
    ∃ ns, parse t = .ok ns ∧ ∀ n ∈ ns, engine.leaves w.context.definitions n = true := by
  cases ht : parse t with
  | error e =>
      rw [pass, ht] at h
      cases (Prod.mk.inj h).1
  | ok ns =>
      refine ⟨ns, rfl, ?_⟩
      rw [pass_of_parse ht] at h
      obtain ⟨_, w₁, hdefine, h⟩ := exists_of_run_bind h
      rw [replaceAll] at h
      obtain ⟨done, w₂, hdone, h⟩ := exists_of_run_bind h
      obtain ⟨_, w₃, hmodify, h⟩ := exists_of_run_bind h
      obtain ⟨heq, -⟩ := Prod.mk.inj h
      obtain ⟨-, hchanged⟩ := Prod.mk.inj (Except.ok.inj heq)
      have hleaves := leaves_of_run_outcomes hdone hchanged
      rw [run_defineAll_of_leaves hleaves] at hdefine
      obtain ⟨-, rfl⟩ := Prod.mk.inj hdefine
      exact hleaves

/-- A pass leaves the text as it is exactly when all its nodes stay as they are. -/
theorem run_pass_iff_leaves (engine : Engine) (first : Bool) (t : Text) (w : Work) :
    (∃ ns, parse t = .ok ns ∧ ∀ n ∈ ns, engine.leaves w.context.definitions n = true) ↔
      ∃ w', (pass engine first t).run.run w = (.ok (t, false), w') := by
  constructor
  · rintro ⟨ns, ht, h⟩
    exact ⟨w, run_pass_of_leaves ht h⟩
  · rintro ⟨w', h⟩
    exact leaves_of_run_pass h

end Rendering
end Stencil
