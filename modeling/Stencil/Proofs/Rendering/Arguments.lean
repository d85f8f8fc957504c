import Stencil.Proofs.Code.History
import Stencil.Proofs.Rendering.Calls
import Stencil.Proofs.Substitution.Binding
import Stencil.Proofs.Substitution.Twins

/-! # What functions are given

A function is called with the values of a slot, restored. In a template without characters of placeholders
every text that a pass reads, stores or enters into the table stands for a text without them
(`Work.Whole`), as long as the functions add none. So no call of a rendering shows its function a placeholder,
and what the function would do with one makes no difference (`Engine.opened_of_calls`). -/
set_option autoImplicit false
namespace Stencil

def Value.Ordinary : Value → Prop
  | .text t => Vault.Ordinary t
  | .number _ => True

instance Value.decidableOrdinary (x : Value) : Decidable x.Ordinary :=
  match x with
  | .text t => inferInstanceAs (Decidable (Vault.Ordinary t))
  | .number _ => inferInstanceAs (Decidable True)

/-- Whether one of the values has a character of placeholders. -/
def Value.anyMarked (xs : List Value) : Bool := !decide (∀ x ∈ xs, x.Ordinary)

theorem Value.Stands.ordinary {v : Vault} {x : Value} (h : x.Stands True v) :
    (x.restored v).Ordinary := by
  cases x with
  | number x => trivial
  | text t =>
      obtain ⟨r, hr, hclose⟩ := h t rfl
      rw [Value.restored, Vault.restore_of_restores hr (Nat.le_refl _)]
      intro c hc
      exact ⟨fun hopen => hr.open_not_mem (hopen ▸ hc), fun hend => hclose trivial (hend ▸ hc)⟩

/-! ## Arguments in declared order -/

namespace Function

variable {P : Value → Prop}

theorem forall_place : ∀ {cells : List (Option Value)} {n : Nat} {x : Value}, P x →
    (∀ y, some y ∈ cells → P y) → ∀ y, some y ∈ place cells n x → P y := by
  intro cells
  induction cells with
  | nil =>
      intro n
      induction n with
      | zero => intro x hx _ y hy; simp_all [place]
      | succ n ih => intro x hx _ y hy; exact ih hx (by simp) y (by simpa [place] using hy)
  | cons cell cells ih =>
      intro n x hx hcells y hy
      have hrest : ∀ y, some y ∈ cells → P y := fun y hy => hcells y (List.mem_cons_of_mem _ hy)
      cases n with
      | zero =>
          rcases List.mem_cons.1 hy with heq | hy
          · exact Option.some.inj heq ▸ hx
          · exact hrest y hy
      | succ n =>
          rcases List.mem_cons.1 hy with heq | hy
          · exact hcells y (heq ▸ List.mem_cons_self ..)
          · exact ih hx hrest y hy

theorem forall_fill : ∀ {cells : List (Option Value)} {values : List Value},
    (∀ y, some y ∈ cells → P y) → (∀ x ∈ values, P x) → ∀ y, some y ∈ fill cells values → P y := by
  intro cells
  induction cells with
  | nil => intro values _ hvalues y hy; exact hvalues y (by simpa [fill] using hy)
  | cons cell cells ih =>
      intro values hcells hvalues y hy
      have hrest : ∀ y, some y ∈ cells → P y := fun y hy => hcells y (List.mem_cons_of_mem _ hy)
      cases cell with
      | some x =>
          rcases List.mem_cons.1 hy with heq | hy
          · exact hcells y (heq ▸ List.mem_cons_self ..)
          · exact ih hrest hvalues y hy
      | none =>
          cases values with
          | nil =>
              rcases List.mem_cons.1 hy with heq | hy
              · cases heq
              · exact ih hrest hvalues y hy
          | cons x values =>
              obtain ⟨hx, hvalues⟩ := List.forall_mem_cons.1 hvalues
              rcases List.mem_cons.1 hy with heq | hy
              · exact Option.some.inj heq ▸ hx
              · exact ih hrest hvalues y hy

theorem forall_placeNamed {params : List Text} {args : List Argument} (hargs : ∀ a ∈ args, P a.value) :
    ∀ y, some y ∈ placeNamed params args → P y := by
  unfold placeNamed
  refine List.foldlRecOn (motive := fun cells => ∀ y, some y ∈ cells → P y) args _ (by simp) ?_
  intro cells hcells a ha
  split
  · exact forall_place (hargs a ha) hcells
  · exact hcells

/-- What holds of the arguments and of the empty text holds of all that the function gets. -/
theorem forall_arrange {f : Function} {args : List Argument} (hargs : ∀ a ∈ args, P a.value)
    (hempty : P default) : ∀ x ∈ f.arrange args, P x := by
  intro x hx
  obtain ⟨cell, hcell, rfl⟩ := List.mem_map.1 hx
  cases cell with
  | none => exact hempty
  | some x =>
      exact forall_fill (forall_placeNamed hargs) (Definition.forall_positional hargs) x hcell

/-! ## Other functions -/

/-- Given no characters of placeholders the function gives none, and it leaves the table as it is. -/
def Discreet (f : Function) : Prop :=
  ∀ args c, (∀ x ∈ args, x.Ordinary) →
    (∀ t, (f.run args c).1 = .ok t → Vault.Ordinary t) ∧ (f.run args c).2.definitions = c.definitions

abbrev Actions := Function → List Value → Context → Except Error Text × Context

/-- The function, but with another action for arguments with a character of placeholders. -/
def instead (other : Actions) (f : Function) : Function :=
  { f with run := fun args c => if ∀ x ∈ args, x.Ordinary then f.run args c else other f args c }

end Function

def Engine.instead (other : Function.Actions) (engine : Engine) : Engine :=
  engine.adapt (Function.instead other)

def Engine.Discreet (engine : Engine) : Prop :=
  ∀ name f, engine.functions.get? name = some f → f.Discreet

/-- The contents and the defaults in the table stand for texts without characters of placeholders. -/
def Work.Whole (w : Work) : Prop :=
  ∀ name d, w.context.definitions.get? name = some d → d.Stands True w.vault

namespace Rendering

variable {α β : Type} {P : α → Vault → Prop} {Q : β → Vault → Prop} {engine : Engine} {w : Work}

/-- If the run succeeds, there are more segments, the table is whole and `P` holds of the result. -/
def Safe (w : Work) (P : α → Vault → Prop) (r : Except Error α × Work) : Prop :=
  ∀ x u, r = (.ok x, u) → w.vault.segments <+: u.vault.segments ∧ u.Whole ∧ P x u.vault

namespace Safe

theorem error (e : Error) (u : Work) : Safe w P (.error e, u) := nofun

theorem ok {x : α} {u : Work} (hgrow : w.vault.segments <+: u.vault.segments) (hu : u.Whole)
    (hx : P x u.vault) : Safe w P (.ok x, u) := by
  rintro x u ⟨⟩
  exact ⟨hgrow, hu, hx⟩

theorem now {x : α} (h : w.Whole) (hx : P x w.vault) : Safe w P (.ok x, w) :=
  .ok (List.prefix_refl _) h hx

theorem after {u : Work} {r : Except Error α × Work} (hgrow : w.vault.segments <+: u.vault.segments)
    (h : Safe u P r) : Safe w P r := by
  intro x v hr
  obtain ⟨hmore, hv, hx⟩ := h x v hr
  exact ⟨hgrow.trans hmore, hv, hx⟩

theorem bind {p : Rendering α} {f : α → Rendering β} (h : Safe w P (p.run.run w))
    (hf : ∀ {x u}, w.vault.segments <+: u.vault.segments → u.Whole → P x u.vault →
      Safe u Q ((f x).run.run u)) : Safe w Q ((p >>= f).run.run w) := by
  intro y v hrun
  obtain ⟨x, u, hp, hrun⟩ := exists_of_run_bind hrun
  obtain ⟨hgrow, hu, hx⟩ := h x u hp
  exact (hf hgrow hu hx).after hgrow y v hrun

end Safe

/-! ## Slots -/

theorem safe_protect {s : Text} (h : w.Whole) (hs : w.vault.Stands True s) :
    Safe w (fun x v => v.Stands True x) ((protect s).run.run w) := by
  rw [run_protect]
  have hgrow := w.vault.grow_protect s
  exact .ok hgrow (fun name d hd => (h name d hd).grow hgrow) hs.protect

theorem safe_expansion {d : Definition} {s : Slot} (h : w.Whole) (hd : d.Stands True w.vault)
    (hargs : ∀ a ∈ s.args, a.Stands True w.vault) :
    Safe w (fun x v => v.Stands True x) ((expansion d s).run.run w) := by
  unfold expansion
  cases hbind : d.bind s.args with
  | error e => exact .error e w
  | ok r =>
      obtain ⟨bound, ws⟩ := r
      have hbound : ∀ p ∈ bound, p.2.Stands True w.vault :=
        Definition.forall_bind (fun a ha => (hargs a ha).2) hd.2 hbind
      have hexpand := Definition.agrees_expand (Vault.Twin.refl [] [] w.vault) hd.1 hbound
      simp only [run_bind_ok _ (run_warn ws w), run_bind_ok _ (run_get _)]
      generalize d.expand bound w.vault = p at hexpand
      cases hexpand with
      | error e => exact .error e _
      | @ok x v _ hgrow _ hx =>
          simp only [run_bind_ok _ (run_modify _ _)]
          have hwhole : Work.Whole ⟨w.context.warn ws, v⟩ := fun name e he => (h name e he).grow hgrow
          split
          · exact (safe_protect hwhole hx).after hgrow
          · exact .ok hgrow hwhole hx

theorem stands_arrange {v : Vault} {args : List Argument} (f : Function)
    (h : ∀ a ∈ args, a.Stands True v) : ∀ x ∈ f.arrange args, x.Stands True v :=
  Function.forall_arrange (fun a ha => (h a ha).2)
    fun _ ht => Value.text.inj ht ▸ .nil v

theorem safe_call {f : Function} {args : List Value} (h : w.Whole)
    (hargs : ∀ x ∈ args, x.Stands True w.vault) (hf : f.Discreet) :
    Safe w (fun r v => v.Stands True r.1) ((call f args).run.run w) := by
  have hgiven : ∀ x ∈ args.map (Value.restored w.vault), x.Ordinary := by
    intro x hx
    obtain ⟨y, hy, rfl⟩ := List.mem_map.1 hx
    exact (hargs y hy).ordinary
  obtain ⟨htext, htable⟩ := hf _ { w.context with attachments := [] } hgiven
  rw [run_call]
  intro r u hr
  obtain ⟨hresult, rfl⟩ := Prod.mk.inj hr
  refine ⟨List.prefix_refl _, fun name d hd => ?_, ?_⟩
  · simp only [htable] at hd
    exact h name d hd
  · cases ht : (f.run (args.map (Value.restored w.vault)) { w.context with attachments := [] }).1 with
    | error e =>
        rw [ht] at hresult
        cases hresult
    | ok t =>
        rw [ht] at hresult
        cases hresult
        exact .of_ordinary _ (htext t ht)

theorem safe_slot? {s : Slot} (hengine : engine.Discreet) (h : w.Whole)
    (hargs : ∀ a ∈ s.args, a.Stands True w.vault) :
    Safe w (fun r v => ∀ x ∈ r, v.Stands True x.1) ((slot? engine s).run.run w) := by
  unfold slot?
  cases s.expr with
  | some e =>
      refine Safe.bind (P := fun r v => ∀ x ∈ r, v.Stands True x) ?_ fun _ hu hr => .now hu ?_
      · rw [run_arithmetic]
        split
        · cases e.eval w.context.definitions.scope with
          | error f => exact .error _ w
          | ok x => exact .now h fun t ht => Option.some.inj ht ▸ stands_formatNumber w.vault x
        · exact .now h (by simp)
      · intro x hx
        obtain ⟨t, ht, rfl⟩ := Option.map_eq_some_iff.1 hx
        exact hr t ht
  | none =>
      have hsome : ∀ {t : Text} {attached : List Attachment} {v : Vault}, v.Stands True t →
          ∀ x ∈ some (t, attached), v.Stands True x.1 := by
        intro t attached v ht x hx
        obtain rfl := Option.some.inj hx
        exact ht
      simp only [run_bind_ok _ (run_get w)]
      cases hd : w.context.definitions.get? s.name with
      | some d =>
          exact (safe_expansion h (h _ _ hd) hargs).bind fun _ hu ht => .now hu (hsome ht)
      | none =>
          cases hf : engine.functions.get? s.name with
          | none => exact .now h (by simp)
          | some f =>
              have hvalues := stands_arrange f hargs
              let warned : Work := { w with context := w.context.warn (f.argumentWarnings s.args) }
              have hwarned : warned.Whole := h
              simp only [run_bind_ok _ (run_warn _ w)]
              refine Safe.after (u := warned) (List.prefix_refl _) ?_
              refine (safe_call hwarned hvalues (hengine _ _ hf)).bind ?_
              rintro ⟨t, attached⟩ u _ hu ht
              cases s.raw with
              | true => exact (safe_protect hu ht).bind fun _ hu' ht' => .now hu' (hsome ht')
              | false => exact .now hu (hsome ht)

/-! ## Nodes -/

theorem safe_outcome {n : Node} (hengine : engine.Discreet) (h : w.Whole)
    (hn : n.Stands True w.vault) :
    Safe w (fun o v => v.Stands True o.text) ((outcome engine n).run.run w) := by
  cases n with
  | text t => exact .now h hn
  | define d source => exact .now h (.nil w.vault)
  | slot s z =>
      obtain ⟨hz, hs⟩ := hn
      refine (safe_slot? hengine h (hz.stands hs)).bind fun hgrow hu hr => ?_
      split
      · exact .now hu (hs.grow hgrow)
      next t attached _ => exact .now hu (hr _ rfl)

theorem safe_outcomes (hengine : engine.Discreet) : ∀ {ns : List Node} {w : Work}, w.Whole →
    (∀ n ∈ ns, n.Stands True w.vault) →
    Safe w (fun os v => ∀ o ∈ os, v.Stands True o.text) ((outcomes engine ns).run.run w) := by
  intro ns
  induction ns with
  | nil => intro w h _; exact .now h (by simp)
  | cons n ns ih =>
      intro w h hns
      obtain ⟨hn, hns⟩ := List.forall_mem_cons.1 hns
      -- the later nodes are treated first
      refine (ih h hns).bind fun hgrow hu hlater => ?_
      refine (safe_outcome hengine hu (hn.grow hgrow)).bind fun hmore hu' ho => ?_
      exact .now hu' (List.forall_mem_cons.2 ⟨ho, fun o' ho' => (hlater o' ho').grow hmore⟩)

theorem safe_defineAll (first : Bool) {ns : List Node} (h : w.Whole)
    (hns : ∀ n ∈ ns, n.Stands True w.vault) :
    Safe w (fun _ _ => True) ((defineAll engine first ns).run.run w) := by
  intro _ u hrun
  obtain ⟨hvault, -⟩ := keeps_of_run_defineAll hrun
  refine ⟨by rw [hvault], fun name d hd => ?_, trivial⟩
  rw [hvault]
  rcases mem_of_run_defineAll hrun hd with hold | hmem
  · exact h name d hold
  · obtain ⟨source, hsource⟩ := exists_mem_of_mem_definitions hmem
    exact (hns _ hsource).2.2.2

/-! ## Passes -/

theorem safe_pass (hengine : engine.Discreet) (first : Bool) {t : Text} (h : w.Whole)
    (ht : w.vault.Stands True t) :
    Safe w (fun r v => v.Stands True r.1) ((pass engine first t).run.run w) := by
  cases hns : parse t with
  | error e =>
      rw [pass, hns]
      exact .error e w
  | ok ns =>
      rw [pass_of_parse hns]
      have hstands := (located_of_parse hns).stands ht
      refine (safe_defineAll first h hstands).bind fun hgrow hu _ => ?_
      refine (safe_outcomes hengine hu fun n hn => (hstands n hn).grow hgrow).bind ?_
      intro os u _ hu hos
      simp only [run_bind_ok _ (run_modify ..)]
      exact .ok (List.prefix_refl _) hu (.flatMap hos)

theorem safe_masked (first : Bool) {t : Text} (h : w.Whole) (ht : w.vault.Stands True t) :
    w.vault.segments <+: (masked first t w).2.vault.segments ∧ (masked first t w).2.Whole ∧
      (masked first t w).2.vault.Stands True (masked first t w).1 := by
  cases first with
  | true => exact ⟨List.prefix_refl _, h, ht⟩
  | false =>
      have hgrow := w.vault.grow_mask t
      exact ⟨hgrow, fun name d hd => (h name d hd).grow hgrow, ht.mask⟩

theorem safe_passes (hengine : engine.Discreet) : ∀ (n : Nat) (first : Bool) {t : Text} {w : Work},
    w.Whole → w.vault.Stands True t →
    Safe w (fun u v => v.Stands True u) ((passes engine n first t).run.run w) := by
  intro n
  induction n with
  | zero => intro first t w h ht; exact .now h ht
  | succ n ih =>
      intro first t w h ht
      obtain ⟨hgrow, hmasked, hstands⟩ := safe_masked first h ht
      rw [run_passes_succ]
      refine ((safe_pass hengine first hmasked hstands).bind ?_).after hgrow
      rintro ⟨x, changed⟩ u _ hu hx
      cases changed with
      | false => exact .now hu hx
      | true => exact ih false hu hx

/-! ## Calls -/

/-- The texts among the values stand for what the function is given, and this has no characters of
placeholders. -/
def Call.Opened (k : Call) : Prop :=
  (∀ t, .text t ∈ k.args →
    Vault.Restores k.vault k.vault.segments.length t (k.vault.restore t)) ∧
  ∀ x ∈ k.given, x.Ordinary

theorem opened_of_stands {k : Call} (h : ∀ x ∈ k.args, x.Stands True k.vault) : k.Opened := by
  refine ⟨fun t ht => ?_, fun x hx => ?_⟩
  · obtain ⟨r, hr, -⟩ := h _ ht t rfl
    rwa [Vault.restore_of_restores hr (Nat.le_refl _)]
  · obtain ⟨y, hy, rfl⟩ := List.mem_map.1 hx
    exact (h y hy).ordinary

theorem opened_call? {n : Node} {k : Call} (hn : n.Stands True w.vault)
    (hk : call? engine w n = some k) : k.Opened := by
  cases n with
  | text t => cases hk
  | define d source => cases hk
  | slot s z =>
      obtain ⟨f, -, rfl⟩ := Option.map_eq_some_iff.1 hk
      exact opened_of_stands (stands_arrange f (hn.1.stands hn.2))

theorem opened_calls (hengine : engine.Discreet) : ∀ {ns : List Node} {w : Work}, w.Whole →
    (∀ n ∈ ns, n.Stands True w.vault) → ∀ k ∈ calls engine w ns, k.Opened := by
  intro ns
  induction ns with
  | nil => intro w _ _ k hk; cases hk
  | cons n ns ih =>
      intro w h hns k hk
      obtain ⟨hn, hns⟩ := List.forall_mem_cons.1 hns
      rcases List.mem_append.1 hk with hk | hk
      · exact ih h hns k hk
      · have hsafe := safe_outcomes hengine h hns
        split at hk
        next os u hrun =>
          obtain ⟨hgrow, -, -⟩ := hsafe os u hrun
          exact opened_call? (hn.grow hgrow) (Option.mem_toList.1 hk)
        next => cases hk

theorem opened_passCalls (hengine : engine.Discreet) (first : Bool) {t : Text} (h : w.Whole)
    (ht : w.vault.Stands True t) : ∀ k ∈ passCalls engine first t w, k.Opened := by
  intro k hk
  unfold passCalls at hk
  split at hk
  next ns hns =>
    have hstands := (located_of_parse hns).stands ht
    split at hk
    next u hrun =>
      obtain ⟨hgrow, hu, -⟩ := safe_defineAll first h hstands _ u hrun
      exact opened_calls hengine hu (fun n hn => (hstands n hn).grow hgrow) k hk
    next => cases hk
  next => cases hk

/-- By induction on the number of passes, each of which leaves a whole table. -/
theorem opened_passesCalls (hengine : engine.Discreet) : ∀ (n : Nat) (first : Bool) {t : Text}
    {w : Work}, w.Whole → w.vault.Stands True t →
    ∀ ks ∈ passesCalls engine n first t w, ∀ k ∈ ks, k.Opened := by
  intro n
  induction n with
  | zero => intro first t w _ _ ks hks; cases hks
  | succ n ih =>
      intro first t w h ht ks hks
      obtain ⟨-, hmasked, hstands⟩ := safe_masked first h ht
      rcases List.mem_cons.1 hks with rfl | hks
      · exact opened_passCalls hengine first hmasked hstands
      · have hsafe := safe_pass hengine first hmasked hstands
        split at hks
        next u v hrun =>
          obtain ⟨-, hv, hu⟩ := hsafe _ v hrun
          exact ih false hv hu ks hks
        next => cases hks

end Rendering

namespace Engine

open Rendering

/-- Functions that stop at characters of placeholders do not show what others would do there. -/
theorem adapt_instead (engine : Engine) (other : Function.Actions) (e : List Value → Error) :
    (engine.instead other).adapt (Function.stopping Value.anyMarked e) =
      engine.adapt (Function.stopping Value.anyMarked e) := by
  rw [instead, adapt_adapt]
  congr 1
  funext f
  simp only [Function.stopping, Function.instead, Function.mk.injEq, true_and]
  funext args c
  by_cases hargs : ∀ x ∈ args, x.Ordinary
  · rw [if_pos hargs]
  · have hmarked : Value.anyMarked args = true := by simpa [Value.anyMarked] using hargs
    rw [if_pos hmarked, if_pos hmarked]

/-- In a rendering of a template without characters of placeholders, with functions that add none, every call
of every pass gives its function what the values of the slot stand for, without any such character. These are
the calls that are made, and what the functions would do if there was such a character makes no difference. -/
theorem opened_of_calls (engine : Engine) (t : Text) (c : Context) (ht : Vault.Ordinary t)
    (hc : c.definitions = {}) (hengine : engine.Discreet) :
    engine.Makes t c (engine.calls t c).flatten ∧
      (∀ ks ∈ engine.calls t c, ∀ k ∈ ks, k.Opened) ∧
      ∀ other, (engine.instead other).render t c = engine.render t c := by
  have hwhole : Work.Whole ⟨c, (prepare t).2⟩ := by
    intro name d hd
    rw [hc] at hd
    cases hd
  have hstands : (prepare t).2.Stands True (prepare t).1 :=
    stands_prepare (fun h => (ht _ h).1 rfl) fun _ h => (ht _ h).2 rfl
  have hopened : ∀ ks ∈ engine.calls t c, ∀ k ∈ ks, k.Opened := by
    rw [calls]
    split
    · intro ks hks
      cases hks
    · exact opened_passesCalls hengine maxPasses true hwhole hstands
  have hmakes := makes_calls engine t c
  refine ⟨hmakes, hopened, fun other => ?_⟩
  apply render_of_makes hmakes (makes_calls _ t c) _ (adapt_instead engine other)
  intro k hk
  obtain ⟨ks, hks, hk⟩ := List.mem_flatten.1 hk
  simpa [Value.anyMarked] using (hopened ks hks k hk).2

theorem discreet_tagging : tagging.Discreet := by
  intro args c hargs
  simp only [tagging]
  split
  next t =>
    refine ⟨fun u hu => ?_, rfl⟩
    obtain rfl := Except.ok.inj hu
    exact hargs (.text t) (List.mem_cons_self ..)
  next => exact ⟨nofun, rfl⟩

def nestingText : Text := bracketed "[w(x)][[tag(\"<[[@x]]>\")]][/w][[w(\"`c`\")]]"

/-- The argument has the placeholder of a value which has the placeholder of the code. -/
theorem opened_of_calls_nesting : Vault.Ordinary nestingText ∧ taggingEngine.Discreet ∧
    (taggingEngine.calls nestingText {}).map (List.map Call.args) =
      [[], [[.text ('<' :: Vault.placeholder 1 ++ ['>'])]], []] ∧
    (taggingEngine.calls nestingText {}).map (List.map Call.given) =
      [[], [[.text "<`c`>".toList]], []] ∧
    taggingEngine.Makes nestingText {} (taggingEngine.calls nestingText {}).flatten ∧
    (∀ ks ∈ taggingEngine.calls nestingText {}, ∀ k ∈ ks, k.Opened) ∧
    ∀ other, (taggingEngine.instead other).render nestingText {} =
      taggingEngine.render nestingText {} := by
  have hordinary : Vault.Ordinary nestingText := by decide +kernel
  have hengine : taggingEngine.Discreet := by
    intro name f hf
    rcases NameMap.eq_of_get?_insert hf with hnone | rfl
    · cases hnone
    · exact discreet_tagging
  obtain ⟨hmakes, hcalls, hinstead⟩ :=
    opened_of_calls taggingEngine nestingText {} hordinary rfl hengine
  exact ⟨hordinary, hengine, by decide +kernel, by decide +kernel, hmakes, hcalls, hinstead⟩

end Engine
end Stencil
