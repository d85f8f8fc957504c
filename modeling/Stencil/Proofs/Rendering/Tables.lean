import Stencil.Proofs.Rendering.Attachments

/-! # The table over a session

A session is a row of renderings in one context. Its moments are those before and after each rendering and, in
each pass, behind each definition, behind each slot and at the end of the pass; failures are among them. Where
functions leave the table alone, it only grows from moment to moment, by definitions under their own names that
no function has (`Rendering.growth_passTables`). So an entry never goes away and never changes
(`Engine.table_over_session`). -/
set_option autoImplicit false
namespace Stencil

namespace NameMap

variable {α : Type} {name : Text} {a : α}

theorem mem_insertEntry {e : Text × α} : ∀ {es : List (Text × α)}, e ∈ insertEntry name a es →
    e ∈ es ∨ e = (name, a) := by
  intro es
  induction es with
  | nil => intro h; exact .inr (List.mem_singleton.1 h)
  | cons first es ih =>
      intro h
      rw [insertEntry] at h
      split at h
      · exact (List.mem_cons.1 h).symm
      · rcases List.mem_cons.1 h with rfl | h
        · exact .inl (List.mem_cons_self ..)
        · exact (ih h).imp_left (List.mem_cons_of_mem _)

theorem mem_insert {m : NameMap α} (h : m.get? name = none) {e : Text × α}
    (he : e ∈ (m.insert name a).entries) : e ∈ m.entries ∨ e = (name, a) := by
  rw [insert, if_neg (by simp [contains, h])] at he
  exact mem_insertEntry he

end NameMap

namespace SymbolTable

/-- Each entry is stored under its own name, and no function has this name. -/
def Sound (engine : Engine) (table : SymbolTable) : Prop :=
  ∀ e ∈ table.entries, e.2.name = e.1 ∧ engine.functions.contains e.1 = false

def Persists (earlier later : SymbolTable) : Prop :=
  ∀ name d, earlier.get? name = some d → later.get? name = some d

/-- A sound table stays sound on the way from the first table to the second one, and no entry is lost. -/
structure Extends (engine : Engine) (earlier later : SymbolTable) : Prop where
  sound : earlier.Sound engine → later.Sound engine
  persists : earlier.Persists later

variable {engine : Engine} {a b c : SymbolTable} {l l' : List SymbolTable}

theorem Extends.refl (engine : Engine) (table : SymbolTable) : Extends engine table table :=
  ⟨id, fun _ _ h => h⟩

theorem Extends.of_eq (h : b = a) : Extends engine a b := h ▸ .refl engine b

theorem Extends.trans (h : Extends engine a b) (h' : Extends engine b c) : Extends engine a c :=
  ⟨h'.sound ∘ h.sound, fun name d hd => h'.persists name d (h.persists name d hd)⟩

theorem extends_insert {table : SymbolTable} {d : Definition} (hfree : table.get? d.name = none)
    (hfunction : engine.functions.get? d.name = none) : Extends engine table (table.insert d.name d) := by
  refine ⟨fun h e he => ?_, fun _ _ hd => NameMap.get?_insert_of_some hfree hd⟩
  rcases NameMap.mem_insert hfree he with he | rfl
  · exact h e he
  · exact ⟨rfl, by simp [NameMap.contains, hfunction]⟩

/-- The way from the first table to the last one, through those in the list. -/
inductive Growth (engine : Engine) : SymbolTable → List SymbolTable → SymbolTable → Prop
  | nil {a b : SymbolTable} : Extends engine a b → Growth engine a [] b
  | cons {a b c : SymbolTable} {l : List SymbolTable} : Extends engine a b → Growth engine b l c →
      Growth engine a (b :: l) c

namespace Growth

theorem before (h : Extends engine a b) (hgrowth : Growth engine b l c) : Growth engine a l c := by
  cases hgrowth with
  | nil h' => exact .nil (h.trans h')
  | cons h' hgrowth => exact .cons (h.trans h') hgrowth

theorem append (h : Growth engine a l b) (h' : Growth engine b l' c) : Growth engine a (l ++ l') c := by
  induction h with
  | nil hab => exact .before hab h'
  | cons hab _ ih => exact .cons hab (ih h')

theorem extends_of_mem (h : Growth engine a l b) : ∀ m ∈ l, Extends engine a m := by
  induction h with
  | nil _ => intro m hm; cases hm
  | cons hab _ ih =>
      intro m hm
      rcases List.mem_cons.1 hm with rfl | hm
      · exact hab
      · exact hab.trans (ih m hm)

theorem pairwise (h : Growth engine a l b) : l.Pairwise Persists := by
  induction h with
  | nil _ => exact .nil
  | cons _ hgrowth ih => exact .cons (fun m hm => (hgrowth.extends_of_mem m hm).persists) ih

end Growth
end SymbolTable

def Engine.LeavesTable (engine : Engine) : Prop :=
  ∀ name f, engine.functions.get? name = some f →
    ∀ args c, (f.run args c).2.definitions = c.definitions

namespace Rendering

open SymbolTable (Extends Growth)

variable {engine : Engine}

/-- The tables behind each node while definitions are entered, up to a failure. -/
def defineTables (engine : Engine) (first : Bool) : List Node → Work → List SymbolTable
  | [], _ => []
  | n :: rest, w =>
    match (defineAll engine first [n]).run.run w with
    | (.ok _, w') => w'.context.definitions :: defineTables engine first rest w'
    | (.error _, w') => [w'.context.definitions]

def outcomeTables (engine : Engine) : List Node → Work → List SymbolTable
  | [], _ => []
  | n :: rest, w => outcomeTables engine rest w ++
    match (outcomes engine rest).run.run w with
    | (.ok _, w') => [((outcome engine n).run.run w').2.context.definitions]
    | (.error _, _) => []

def passTables (engine : Engine) (first : Bool) (t : Text) (w : Work) : List SymbolTable :=
  match parse t with
  | .error _ => []
  | .ok nodes => defineTables engine first nodes w ++
    match (defineAll engine first nodes).run.run w with
    | (.ok _, w') => outcomeTables engine nodes w'
    | (.error _, _) => []

def passesTables (engine : Engine) : Nat → Bool → Text → Work → List SymbolTable
  | 0, _, _, _ => []
  | n + 1, first, t, w => passTables engine first (masked first t w).1 (masked first t w).2 ++
    match (pass engine first (masked first t w).1).run.run (masked first t w).2 with
    | (.ok (u, changed), w') =>
      w'.context.definitions :: if changed then passesTables engine n false u w' else []
    | (.error _, w') => [w'.context.definitions]

/-! ## One step -/

theorem steady_table (h : engine.LeavesTable) :
    Steady engine fun w w' => Extends engine w.context.definitions w'.context.definitions where
  refl w := .refl engine _
  trans h h' := h.trans h'
  vault w _ := .refl engine _
  warn w _ := .refl engine _
  call hf args w := by
    rw [run_call]
    exact .of_eq (h _ _ hf _ _)
  enter hfree hfunction := SymbolTable.extends_insert hfree hfunction

theorem growth_defineTables (h : engine.LeavesTable) (first : Bool) : ∀ (ns : List Node) (w : Work),
    Growth engine w.context.definitions (defineTables engine first ns w)
      ((defineAll engine first ns).run.run w).2.context.definitions := by
  intro ns
  induction ns with
  | nil => intro w; exact .nil (.refl engine _)
  | cons n ns ih =>
      intro w
      have hfirst := (steady_table h).defineAll first [n] w
      have hsplit := run_defineAll_append engine first [n] ns w
      rw [List.singleton_append, run_bind] at hsplit
      rw [defineTables, hsplit]
      cases hrun : (defineAll engine first [n]).run.run w with
      | mk r v =>
          rw [hrun] at hfirst
          cases r with
          | ok u => exact .cons hfirst (ih v)
          | error e => exact .cons hfirst (.nil (.refl engine _))

theorem growth_outcomeTables (h : engine.LeavesTable) : ∀ (ns : List Node) (w : Work),
    Growth engine w.context.definitions (outcomeTables engine ns w)
      ((outcomes engine ns).run.run w).2.context.definitions := by
  intro ns
  induction ns with
  | nil => intro w; exact .nil (.refl engine _)
  | cons n ns ih =>
      intro w
      have hlater := ih w
      rw [outcomeTables, outcomes, run_bind]
      cases hrun : (outcomes engine ns).run.run w with
      | mk r v =>
          rw [hrun] at hlater
          cases r with
          | error e => exact hlater.append (.nil (.refl engine _))
          | ok later =>
              have hn := (steady_table h).outcome n v
              refine hlater.append (.cons hn (.nil (.of_eq ?_)))
              dsimp only
              rw [run_bind]
              cases (outcome engine n).run.run v with
              | mk r' v' => cases r' <;> rfl

theorem growth_passTables (h : engine.LeavesTable) (first : Bool) (t : Text) (w : Work) :
    Growth engine w.context.definitions (passTables engine first t w)
      ((pass engine first t).run.run w).2.context.definitions := by
  cases ht : parse t with
  | error e =>
      rw [passTables, pass, ht]
      exact .nil (.refl engine _)
  | ok ns =>
      have hdefine := growth_defineTables h first ns w
      rw [passTables, ht, pass_of_parse ht, run_bind]
      dsimp only
      cases hrun : (defineAll engine first ns).run.run w with
      | mk r v =>
          rw [hrun] at hdefine
          cases r with
          | error e => exact hdefine.append (.nil (.refl engine _))
          | ok u =>
              have houtcomes := growth_outcomeTables h ns v
              have hreplace : ((replaceAll engine ns).run.run v).2.context.definitions =
                  ((outcomes engine ns).run.run v).2.context.definitions := by
                rw [replaceAll, run_bind]
                cases (outcomes engine ns).run.run v with
                | mk r' v' => cases r' <;> rfl
              rw [← hreplace] at houtcomes
              exact hdefine.append houtcomes

/-! ## All passes -/

theorem growth_passesTables (h : engine.LeavesTable) : ∀ (n : Nat) (first : Bool) (t : Text) (w : Work),
    Growth engine w.context.definitions (passesTables engine n first t w)
      ((passes engine n first t).run.run w).2.context.definitions := by
  intro n
  induction n with
  | zero => intro first t w; exact .nil (.refl engine _)
  | succ n ih =>
      intro first t w
      have hpass := growth_passTables h first (masked first t w).1 (masked first t w).2
      have hmasked : (masked first t w).2.context = w.context := by cases first <;> rfl
      rw [hmasked] at hpass
      rw [passesTables, run_passes_succ, run_bind]
      cases hrun : (pass engine first (masked first t w).1).run.run (masked first t w).2 with
      | mk r v =>
          rw [hrun] at hpass
          have hend : Extends engine v.context.definitions v.context.definitions := .refl engine _
          cases r with
          | error e => exact hpass.append (.cons hend (.nil hend))
          | ok result =>
              obtain ⟨u, changed⟩ := result
              cases changed with
              | false => exact hpass.append (.cons hend (.nil hend))
              | true => exact hpass.append (.cons hend (ih false u v))

end Rendering

namespace Engine

open Rendering
open SymbolTable (Extends Growth Sound Persists)

variable {engine : Engine}

def renderTables (engine : Engine) (t : Text) (c : Context) : List SymbolTable :=
  c.definitions ::
    ((if c.options.matchesOnly then []
      else passesTables engine maxPasses true (prepare t).1 ⟨c, (prepare t).2⟩) ++
    [(engine.render t c).2.definitions])

/-- The context after a session: each rendering has its own options, and all else is what the one before it
left. -/
def session (engine : Engine) : List (Options × Text) → Context → Context
  | [], c => c
  | (o, t) :: later, c => session engine later (engine.render t { c with options := o }).2

def sessionTables (engine : Engine) : List (Options × Text) → Context → List SymbolTable
  | [], c => [c.definitions]
  | (o, t) :: later, c => renderTables engine t { c with options := o } ++
    sessionTables engine later (engine.render t { c with options := o }).2

theorem growth_renderTables (h : engine.LeavesTable) (t : Text) (c : Context) :
    Growth engine c.definitions (renderTables engine t c) (engine.render t c).2.definitions := by
  refine .cons (.refl engine _) (Growth.append (b := (engine.render t c).2.definitions) ?_
    (.cons (.refl engine _) (.nil (.refl engine _))))
  cases hc : c.options.matchesOnly with
  | true =>
      rw [render_slots engine t hc]
      exact .nil (.refl engine _)
  | false =>
      have hpasses := growth_passesTables h maxPasses true (prepare t).1 ⟨c, (prepare t).2⟩
      rw [render_run engine t hc]
      cases hrun : (passes engine maxPasses true (prepare t).1).run.run ⟨c, (prepare t).2⟩ with
      | mk r v =>
          rw [hrun] at hpasses
          cases r <;> exact hpasses

theorem growth_sessionTables (h : engine.LeavesTable) : ∀ (requests : List (Options × Text)) (c : Context),
    Growth engine c.definitions (sessionTables engine requests c) (session engine requests c).definitions := by
  intro requests
  induction requests with
  | nil => intro c; exact .cons (.refl engine _) (.nil (.refl engine _))
  | cons request requests ih =>
      obtain ⟨o, t⟩ := request
      intro c
      exact (growth_renderTables h t { c with options := o }).append (ih _)

/-- At every moment of a session that begins with an empty table, all entries are stored under their own names,
which no function has; and what is in the table at one moment is there at every later one. -/
theorem table_over_session (engine : Engine) (requests : List (Options × Text)) (c : Context)
    (hfunctions : engine.LeavesTable) (hc : c.definitions = {}) :
    (∀ table ∈ sessionTables engine requests c, table.Sound engine) ∧
      (sessionTables engine requests c).Pairwise Persists := by
  have hgrowth := growth_sessionTables hfunctions requests c
  refine ⟨fun table htable => ?_, hgrowth.pairwise⟩
  have hempty : c.definitions.Sound engine := by
    rw [hc]
    exact nofun
  exact (hgrowth.extends_of_mem table htable).sound hempty

/-- A definition comes out of an expansion, a second template fails at the name of a function, and a third one
is only listed. -/
def taggingRequests : List (Options × Text) :=
  [({}, bracketed "[d][e]1[/e][[e]][/d][[d]][[tag(\"a\")]]"),
    ({}, bracketed "[f]2[/f][tag]3[/tag][[d]]"),
    ({ matchesOnly := true }, bracketed "[g]4[/g][[f]]")]

theorem leavesTable_taggingEngine : taggingEngine.LeavesTable := by
  intro name f hf args c
  rcases NameMap.eq_of_get?_insert hf with hnone | rfl
  · cases hnone
  · dsimp only [tagging]
    split <;> rfl

theorem table_over_session_tagging :
    (taggingEngine.session taggingRequests {}).definitions.entries.map Prod.fst = [['d'], ['e'], ['f']] ∧
      (∀ table ∈ taggingEngine.sessionTables taggingRequests {}, table.Sound taggingEngine) ∧
      (taggingEngine.sessionTables taggingRequests {}).Pairwise Persists :=
  ⟨by decide +kernel,
    table_over_session taggingEngine taggingRequests {} leavesTable_taggingEngine rfl⟩

end Engine
end Stencil
