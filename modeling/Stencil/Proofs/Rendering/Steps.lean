import Stencil.Render

/-! # Steps of a rendering

The runs of the steps that a rendering is made of: composite steps first, then the entering of
definitions. Entering definitions reads and changes nothing but the table (`run_defineAll_define`), it
goes over the nodes from left to right (`run_defineAll_append`), and what is in the table stays
(`keeps_of_run_defineAll`). -/
set_option autoImplicit false
namespace Stencil

theorem NameMap.eq_of_get?_insert {α : Type} {m : NameMap α} {name other : Text} {a b : α}
    (hb : (m.insert name a).get? other = some b) : m.get? other = some b ∨ b = a := by
  rw [get?_insert] at hb
  split at hb
  · exact .inr (Option.some.inj hb).symm
  · exact .inl hb

namespace Rendering

variable {α β : Type}

@[simp] theorem run_pure (a : α) (w : Work) : (pure a : Rendering α).run.run w = (.ok a, w) := rfl

@[simp] theorem run_get (w : Work) : (get : Rendering Work).run.run w = (.ok w, w) := rfl

@[simp] theorem run_modify (f : Work → Work) (w : Work) :
    (modify f : Rendering Unit).run.run w = (.ok (), f w) := rfl

theorem run_warn (ws : List Warning) (w : Work) :
    (warn ws).run.run w = (.ok (), { w with context := w.context.warn ws }) := rfl

/-- A step after another one starts from the state that the first one leaves; a failure ends both. -/
theorem run_bind (p : Rendering α) (f : α → Rendering β) (w : Work) :
    (p >>= f).run.run w =
      match p.run.run w with
      | (.ok a, w') => (f a).run.run w'
      | (.error e, w') => (.error e, w') := by
  simp only [ExceptT.run_bind, StateT.run_bind]
  obtain ⟨r, w'⟩ := p.run.run w
  cases r with
  | ok a => rfl
  | error e => rfl

theorem run_bind_ok {p : Rendering α} {a : α} {w w' : Work} (f : α → Rendering β)
    (h : p.run.run w = (.ok a, w')) : (p >>= f).run.run w = (f a).run.run w' := by
  rw [run_bind, h]

/-- A composite step that succeeds is two steps that do. -/
theorem exists_of_run_bind {p : Rendering α} {f : α → Rendering β} {b : β} {w w' : Work}
    (h : (p >>= f).run.run w = (.ok b, w')) :
    ∃ a v, p.run.run w = (.ok a, v) ∧ (f a).run.run v = (.ok b, w') := by
  rw [run_bind] at h
  cases hp : p.run.run w with
  | mk r v =>
      rw [hp] at h
      cases r with
      | error e => cases (Prod.mk.inj h).1
      | ok a => exact ⟨a, v, rfl, h⟩

/-! ## Insertions -/

theorem run_protect (t : Text) (w : Work) : (protect t).run.run w =
    (.ok (Vault.placeholder w.vault.segments.length), { w with vault := (w.vault.protect t).2 }) := rfl

/-- The expansion of a definition; what it warns about was bound before the content is read. -/
theorem run_expansion (d : Definition) (s : Slot) (w : Work) :
    (expansion d s).run.run w =
      match d.bind s.args with
      | .error e => (.error e, w)
      | .ok (bound, warnings) =>
        let w := { w with context := w.context.warn warnings }
        match d.expand bound w.vault with
        | .error e => (.error e, w)
        | .ok (t, vault) =>
          (.ok (if d.raw || s.raw then Vault.placeholder vault.segments.length else t),
            { w with vault := if d.raw || s.raw then (vault.protect t).2 else vault }) := by
  rw [expansion]
  cases d.bind s.args with
  | error e => rfl
  | ok r =>
      obtain ⟨bound, warnings⟩ := r
      simp only [run_bind_ok _ (run_warn warnings w), run_bind_ok _ (run_get _)]
      cases d.expand bound w.vault with
      | error e => rfl
      | ok r =>
          simp only [run_bind_ok _ (run_modify _ _)]
          cases d.raw || s.raw with
          | true => rfl
          | false => rfl

/-! ## Entering definitions -/

def definitions : List Node → List Definition
  | [] => []
  | .define d _ :: rest => d :: definitions rest
  | .text _ :: rest => definitions rest
  | .slot _ _ :: rest => definitions rest

theorem exists_mem_of_mem_definitions : ∀ {ns : List Node} {d : Definition}, d ∈ definitions ns →
    ∃ source, .define d source ∈ ns := by
  intro ns
  induction ns with
  | nil => intro d h; cases h
  | cons n ns ih =>
      intro d h
      cases n with
      | text t => exact (ih h).imp fun _ hd => List.mem_cons_of_mem _ hd
      | slot s t => exact (ih h).imp fun _ hd => List.mem_cons_of_mem _ hd
      | define e source =>
          rcases List.mem_cons.1 h with rfl | h
          · exact ⟨source, List.mem_cons_self ..⟩
          · exact (ih h).imp fun _ hd => List.mem_cons_of_mem _ hd

def enter (d : Definition) (w : Work) : Work :=
  { w with context := { w.context with definitions := w.context.definitions.insert d.name d } }

/-- A definition in a pass: one that compares equal to the entry of the table is passed over, any other
one needs a free name. -/
theorem run_defineAll_define (engine : Engine) (first : Bool) (d : Definition)
    (source : DefinitionSource) (rest : List Node) (w : Work) :
    (defineAll engine first (.define d source :: rest)).run.run w =
      if (!first && w.context.definitions.get? d.name == some d) = true then
        (defineAll engine first rest).run.run w
      else if w.context.definitions.contains d.name then (.error (.nameConflict d.name), w)
      else if engine.functions.contains d.name then (.error (.functionConflict d.name), w)
      else (defineAll engine first rest).run.run (enter d w) := by
  rw [defineAll, run_bind_ok _ (run_get w)]
  by_cases hsame : (!first && w.context.definitions.get? d.name == some d) = true
  · rw [if_pos hsame, if_pos hsame]
  · rw [if_neg hsame, if_neg hsame, SymbolTable.define]
    by_cases hname : w.context.definitions.contains d.name = true
    · rw [if_pos hname, if_pos hname]
      rfl
    · rw [if_neg hname, if_neg hname]
      by_cases hfunction : engine.functions.contains d.name = true
      · rw [if_pos hfunction, if_pos hfunction]
        rfl
      · rw [if_neg hfunction, if_neg hfunction]
        rfl

/-- Entering the definitions of nodes in a row is entering those of the first ones and then, if that
did not fail, those of the others. -/
theorem run_defineAll_append (engine : Engine) (first : Bool) : ∀ (ms ns : List Node) (w : Work),
    (defineAll engine first (ms ++ ns)).run.run w =
      (defineAll engine first ms >>= fun _ => defineAll engine first ns).run.run w := by
  intro ms ns
  induction ms with
  | nil => intro w; rfl
  | cons m ms ih =>
      intro w
      cases m with
      | text t => exact ih w
      | slot s t => exact ih w
      | define d t =>
          rw [List.cons_append, run_bind]
          simp only [run_defineAll_define, ih]
          by_cases hsame : (!first && w.context.definitions.get? d.name == some d) = true
          · simp only [if_pos hsame, run_bind]
          · simp only [if_neg hsame]
            by_cases hname : w.context.definitions.contains d.name = true
            · simp only [if_pos hname]
            · simp only [if_neg hname]
              by_cases hfunction : engine.functions.contains d.name = true
              · simp only [if_pos hfunction]
              · simp only [if_neg hfunction, run_bind]

theorem exists_of_run_defineAll_append {engine : Engine} {first : Bool} {ms ns : List Node}
    {w w' : Work} (h : (defineAll engine first (ms ++ ns)).run.run w = (.ok (), w')) :
    ∃ v, (defineAll engine first ms).run.run w = (.ok (), v) ∧
      (defineAll engine first ns).run.run v = (.ok (), w') := by
  rw [run_defineAll_append] at h
  obtain ⟨_, v, hms, hns⟩ := exists_of_run_bind h
  exact ⟨v, hms, hns⟩

/-- The entry of the table under the definition's name compares equal to it. -/
def Entered (w : Work) (d : Definition) : Prop :=
  (w.context.definitions.get? d.name == some d) = true

/-- Where definitions are entered without failure, the first one is entered already or has a free name. -/
theorem cases_of_run_defineAll {engine : Engine} {first : Bool} {d : Definition}
    {source : DefinitionSource} {rest : List Node} {w w' : Work}
    (h : (defineAll engine first (.define d source :: rest)).run.run w = (.ok (), w')) :
    (Entered w d ∧ (defineAll engine first rest).run.run w = (.ok (), w')) ∨
      (w.context.definitions.get? d.name = none ∧
        (defineAll engine first rest).run.run (enter d w) = (.ok (), w')) := by
  rw [run_defineAll_define] at h
  by_cases hsame : (!first && w.context.definitions.get? d.name == some d) = true
  · rw [if_pos hsame] at h
    rw [Bool.and_eq_true] at hsame
    exact .inl ⟨hsame.2, h⟩
  · rw [if_neg hsame] at h
    by_cases hname : w.context.definitions.contains d.name = true
    · rw [if_pos hname] at h
      cases (Prod.mk.inj h).1
    · rw [if_neg hname] at h
      by_cases hfunction : engine.functions.contains d.name = true
      · rw [if_pos hfunction] at h
        cases (Prod.mk.inj h).1
      · rw [if_neg hfunction] at h
        exact .inr ⟨by simpa [NameMap.contains] using hname, h⟩

/-- The vault and the entries of the table are as they were; the table may have more of them. -/
def Keeps (w w' : Work) : Prop :=
  w'.vault = w.vault ∧ ∀ (name : Text) (s : Definition),
    w.context.definitions.get? name = some s → w'.context.definitions.get? name = some s

theorem Keeps.refl (w : Work) : Keeps w w := ⟨rfl, fun _ _ h => h⟩

theorem Keeps.trans {w w' w'' : Work} (h : Keeps w w') (h' : Keeps w' w'') : Keeps w w'' :=
  ⟨h'.1.trans h.1, fun name s hs => h'.2 name s (h.2 name s hs)⟩

theorem keeps_enter {w : Work} {d : Definition} (h : w.context.definitions.get? d.name = none) :
    Keeps w (enter d w) :=
  ⟨rfl, fun _ _ hs => NameMap.get?_insert_of_some h hs⟩

theorem keeps_of_run_defineAll {engine : Engine} {first : Bool} : ∀ {ns : List Node} {w w' : Work},
    (defineAll engine first ns).run.run w = (.ok (), w') → Keeps w w' := by
  intro ns
  induction ns with
  | nil =>
      intro w w' h
      obtain ⟨-, rfl⟩ := Prod.mk.inj h
      exact Keeps.refl w
  | cons n ns ih =>
      intro w w' h
      cases n with
      | text t => exact ih h
      | slot s t => exact ih h
      | define d t =>
          rcases cases_of_run_defineAll h with ⟨-, hrest⟩ | ⟨hfree, hrest⟩
          · exact ih hrest
          · exact (keeps_enter hfree).trans (ih hrest)

/-- What is in the table was there before or is among the nodes. -/
theorem mem_of_run_defineAll {engine : Engine} {first : Bool} {name : Text} {s : Definition} :
    ∀ {ns : List Node} {w w' : Work}, (defineAll engine first ns).run.run w = (.ok (), w') →
    w'.context.definitions.get? name = some s →
    w.context.definitions.get? name = some s ∨ s ∈ definitions ns := by
  intro ns
  induction ns with
  | nil =>
      intro w w' h hs
      obtain ⟨-, rfl⟩ := Prod.mk.inj h
      exact .inl hs
  | cons n ns ih =>
      intro w w' h hs
      cases n with
      | text t => exact ih h hs
      | slot s t => exact ih h hs
      | define d t =>
          rcases cases_of_run_defineAll h with ⟨-, hrest⟩ | ⟨hfree, hrest⟩
          · exact (ih hrest hs).imp_right (List.mem_cons_of_mem _)
          · rcases ih hrest hs with henter | hmem
            · rcases NameMap.eq_of_get?_insert henter with hold | rfl
              · exact .inl hold
              · exact .inr (List.mem_cons_self ..)
            · exact .inr (List.mem_cons_of_mem _ hmem)

theorem Entered.of_keeps {w w' : Work} {d : Definition} (h : Entered w d) (hk : Keeps w w') :
    Entered w' d := by
  unfold Entered at h ⊢
  cases hs : w.context.definitions.get? d.name with
  | none => rw [hs] at h; cases h
  | some s => rw [hk.2 d.name s hs, ← hs]; exact h

theorem entered_enter {w : Work} {d : Definition} (hself : (d == d) = true) : Entered (enter d w) d := by
  unfold Entered enter
  rw [NameMap.get?_insert_self]
  exact hself

/-- In a pass after the first, definitions that are entered need nothing more. -/
theorem run_defineAll_of_entered (engine : Engine) : ∀ {ns : List Node} {w : Work},
    (∀ d ∈ definitions ns, Entered w d) → (defineAll engine false ns).run.run w = (.ok (), w) := by
  intro ns
  induction ns with
  | nil => intro w _; rfl
  | cons n ns ih =>
      intro w h
      cases n with
      | text t => exact ih h
      | slot s t => exact ih h
      | define d t =>
          have hd : Entered w d := h d (List.mem_cons_self ..)
          rw [run_defineAll_define, if_pos (by simpa [Entered] using hd)]
          exact ih fun e he => h e (List.mem_cons_of_mem _ he)

/-- After a pass has entered its definitions, all of them are entered. -/
theorem entered_of_run_defineAll (engine : Engine) : ∀ {ns : List Node} {w w' : Work},
    (∀ d ∈ definitions ns, (d == d) = true) →
    (defineAll engine false ns).run.run w = (.ok (), w') → ∀ d ∈ definitions ns, Entered w' d := by
  intro ns
  induction ns with
  | nil => intro w w' _ _; simp [definitions]
  | cons n ns ih =>
      intro w w' hself h
      cases n with
      | text t => exact ih hself h
      | slot s t => exact ih hself h
      | define d t =>
          have hrest : ∀ e ∈ definitions ns, (e == e) = true :=
            fun e he => hself e (List.mem_cons_of_mem _ he)
          rcases cases_of_run_defineAll h with ⟨hd, hns⟩ | ⟨hfree, hns⟩
          · exact List.forall_mem_cons.2 ⟨hd.of_keeps (keeps_of_run_defineAll hns), ih hrest hns⟩
          · have hd : Entered (enter d w) d := entered_enter (hself d (List.mem_cons_self ..))
            exact List.forall_mem_cons.2 ⟨hd.of_keeps (keeps_of_run_defineAll hns), ih hrest hns⟩

/-- In a pass after the first, a second copy of nodes adds nothing to the first copy. -/
theorem run_defineAll_again (engine : Engine) (as ns bs cs : List Node) (w : Work)
    (hself : ∀ d ∈ definitions ns, (d == d) = true) :
    (defineAll engine false (as ++ ns ++ bs ++ ns ++ cs)).run.run w =
      (defineAll engine false (as ++ ns ++ bs ++ cs)).run.run w := by
  rw [List.append_assoc _ ns cs, run_defineAll_append, run_defineAll_append _ _ _ cs, run_bind,
    run_bind]
  cases hfront : (defineAll engine false (as ++ ns ++ bs)).run.run w with
  | mk r w' =>
      cases r with
      | error e => rfl
      | ok u =>
          have hentered : ∀ d ∈ definitions ns, Entered w' d := by
            obtain ⟨w₂, hcopy, hbs⟩ := exists_of_run_defineAll_append hfront
            obtain ⟨w₁, -, hns⟩ := exists_of_run_defineAll_append hcopy
            intro d hd
            exact (entered_of_run_defineAll engine hself hns d hd).of_keeps
              (keeps_of_run_defineAll hbs)
          show (defineAll engine false (ns ++ cs)).run.run w' =
            (defineAll engine false cs).run.run w'
          rw [run_defineAll_append, run_bind, run_defineAll_of_entered engine hentered]

end Rendering
end Stencil
