import Stencil.Proofs.Code.Twins
import Stencil.Proofs.Rendering.Literal
import Stencil.Proofs.Rendering.Redefinition
import Stencil.Proofs.Substitution.Binding
import Stencil.Proofs.Substitution.Twins

/-! # Opaque insertions

Nothing looks into the content of a raw variable. Two renderings of a template that differ only in this
content read the same texts, as the content is in the vault and never in a text: they fail alike, or their
outputs are the same but for the content (`Engine.render_holding`). -/
set_option autoImplicit false
namespace Stencil

open Vault (Twin)
open Substitution (Agrees)

def Definition.verbatim (name content : Text) : Definition := { name, content, raw := true }

/-- The context with a raw variable, whatever had the name before. -/
def Context.holding (c : Context) (name content : Text) : Context :=
  { c with definitions := c.definitions.insert name (.verbatim name content) }

namespace Rendering

/-! ## The texts that are read -/

/-- The texts that the passes read, with one text for each pass that comes about. -/
def passTexts (engine : Engine) : Nat → Bool → Text → Work → List Text
  | 0, _, _, _ => []
  | n + 1, first, t, w =>
    let (t, w) := if first then (t, w) else ((w.vault.mask t).1, { w with vault := (w.vault.mask t).2 })
    match (pass engine first t).run.run w with
    | (.ok (u, true), w) => t :: passTexts engine n false u w
    | _ => [t]

def defines (name t : Text) : Bool :=
  match parse t with
  | .ok ns => (definitions ns).any fun d => d.name = name
  | .error _ => false

theorem ne_of_defines {name t : Text} {ns : List Node} (hns : parse t = .ok ns)
    (h : defines name t = false) : ∀ d ∈ definitions ns, d.name ≠ name := by
  rw [defines, hns] at h
  simpa using h

variable {name a b : Text} {w w' : Work}

/-! ## Two renderings -/

/-- The works differ in what the raw variable contains, `a` or `b`, and in what was stored of it. All else
that the first one holds stands for something. -/
structure Twins (name a b : Text) (w w' : Work) : Prop where
  vault : Twin a b w.vault w'.vault
  left : w.context.definitions.get? name = some (.verbatim name a)
  right : w'.context.definitions.get? name = some (.verbatim name b)
  others : ∀ n, n ≠ name → w'.context.definitions.get? n = w.context.definitions.get? n
  stands : ∀ n d, w.context.definitions.get? n = some d → d.Stands False w.vault

namespace Twins

theorem withVault {v v' : Vault} (h : Twins name a b w w') (hgrow : w.vault.segments <+: v.segments)
    (hv : Twin a b v v') : Twins name a b { w with vault := v } { w' with vault := v' } :=
  ⟨hv, h.left, h.right, h.others, fun n d hd => (h.stands n d hd).grow hgrow⟩

theorem warn (h : Twins name a b w w') (ws : List Warning) :
    Twins name a b { w with context := w.context.warn ws }
      { w' with context := w'.context.warn ws } := ⟨h.vault, h.left, h.right, h.others, h.stands⟩

theorem attach (h : Twins name a b w w') (attached : List Attachment) :
    Twins name a b
      { w with context := { w.context with attachments := w.context.attachments ++ attached } }
      { w' with context := { w'.context with attachments := w'.context.attachments ++ attached } } :=
  ⟨h.vault, h.left, h.right, h.others, h.stands⟩

theorem enter {d : Definition} (h : Twins name a b w w') (hname : d.name ≠ name)
    (hd : d.Stands False w.vault) :
    Twins name a b (Rendering.enter d w) (Rendering.enter d w') := by
  refine ⟨h.vault, ?_, ?_, fun n hn => ?_, fun n e he => ?_⟩
  · exact (NameMap.get?_insert ..).trans ((if_neg (Ne.symm hname)).trans h.left)
  · exact (NameMap.get?_insert ..).trans ((if_neg (Ne.symm hname)).trans h.right)
  · simp only [Rendering.enter, NameMap.get?_insert, h.others n hn]
  · simp only [Rendering.enter, NameMap.get?_insert] at he
    split at he
    · obtain rfl := Option.some.inj he
      exact hd
    · exact h.stands n e he

/-- A raw variable is no number. -/
theorem scope_eq (h : Twins name a b w w') :
    w'.context.definitions.scope = w.context.definitions.scope := by
  funext n
  by_cases hn : n = name
  · subst hn
    simp [SymbolTable.scope, h.left, h.right, Definition.verbatim, Definition.numericValue?]
  · rw [SymbolTable.scope, SymbolTable.scope, h.others n hn]

theorem contains_eq (h : Twins name a b w w') (n : Text) :
    w'.context.definitions.contains n = w.context.definitions.contains n := by
  unfold NameMap.contains
  by_cases hn : n = name
  · subst hn
    rw [h.left, h.right]
    rfl
  · rw [h.others n hn]

end Twins

/-- Two runs from twin works, of which `w` is the first one. Both fail with the same error, or both give
the same result and leave twin works, with more segments, and in the first one `P` holds of the result. -/
inductive Alike {α : Type} (name a b : Text) (w : Work) (P : α → Vault → Prop) :
    Except Error α × Work → Except Error α × Work → Prop
  | error (e : Error) {u u' : Work} : Alike name a b w P (.error e, u) (.error e, u')
  | ok {x : α} {u u' : Work} : w.vault.segments <+: u.vault.segments → Twins name a b u u' →
      P x u.vault → Alike name a b w P (.ok x, u) (.ok x, u')

namespace Alike

variable {α β : Type} {P : α → Vault → Prop} {Q : β → Vault → Prop}

theorem now {x : α} (h : Twins name a b w w') (hx : P x w.vault) :
    Alike name a b w P (.ok x, w) (.ok x, w') := .ok (List.prefix_refl _) h hx

theorem after {u : Work} {p q : Except Error α × Work} (hgrow : w.vault.segments <+: u.vault.segments)
    (h : Alike name a b u P p q) : Alike name a b w P p q := by
  cases h with
  | error e => exact .error e
  | ok hmore hu hx => exact .ok (hgrow.trans hmore) hu hx

/-- The same step after two runs that are alike. -/
theorem bind {p q : Rendering α} {f : α → Rendering β}
    (h : Alike name a b w P (p.run.run w) (q.run.run w'))
    (hf : ∀ {x u u'}, p.run.run w = (.ok x, u) → w.vault.segments <+: u.vault.segments →
      Twins name a b u u' → P x u.vault → Alike name a b u Q ((f x).run.run u) ((f x).run.run u')) :
    Alike name a b w Q ((p >>= f).run.run w) ((q >>= f).run.run w') := by
  rw [run_bind, run_bind]
  generalize hp : p.run.run w = r, q.run.run w' = r' at h
  cases h with
  | error e => exact .error e
  | ok hgrow hu hx => exact (hf hp hgrow hu hx).after hgrow

end Alike

/-! ## Slots -/

theorem alike_protect {s t : Text} (h : Twins name a b w w') (hst : s = t ∨ (s = a ∧ t = b))
    (hs : w.vault.Stands False s) : Alike name a b w (fun x v => v.Stands False x)
      ((protect s).run.run w) ((protect t).run.run w') := by
  rw [run_protect, run_protect]
  obtain ⟨hmark, hvault⟩ := h.vault.store hst
  rw [show Vault.placeholder w'.vault.segments.length = Vault.placeholder w.vault.segments.length
    from hmark]
  exact .ok (w.vault.grow_protect s) (h.withVault (w.vault.grow_protect s) hvault) hs.protect

theorem alike_expansion {d : Definition} {s : Slot} (h : Twins name a b w w') (hd : d.Stands False w.vault)
    (hargs : ∀ c ∈ s.args, c.Stands False w.vault) : Alike name a b w (fun x v => v.Stands False x)
      ((expansion d s).run.run w) ((expansion d s).run.run w') := by
  unfold expansion
  cases hbind : d.bind s.args with
  | error e => exact .error e
  | ok r =>
      obtain ⟨bound, ws⟩ := r
      have hbound : ∀ p ∈ bound, p.2.Stands False w.vault :=
        Definition.forall_bind (fun c hc => (hargs c hc).2) hd.2 hbind
      simp only
      rw [run_bind_ok _ (run_warn ws w), run_bind_ok _ (run_warn ws w'), run_bind_ok _ (run_get _),
        run_bind_ok _ (run_get _)]
      have hexpand := Definition.agrees_expand h.vault hd.1 hbound
      simp only
      generalize d.expand bound w.vault = p, d.expand bound w'.vault = q at hexpand
      cases hexpand with
      | error e => exact .error e
      | @ok x v v' hgrow hv hx =>
          simp only
          rw [run_bind_ok _ (run_modify _ _), run_bind_ok _ (run_modify _ _)]
          have htwins := (h.warn ws).withVault hgrow hv
          split
          · exact (alike_protect htwins (.inl rfl) hx).after hgrow
          · exact .ok hgrow htwins hx

/-- The insertion of the variable, where the texts that are stored differ. -/
theorem alike_expansion_verbatim (s : Slot) (h : Twins name a b w w')
    (ha : w.vault.Stands False a) : Alike name a b w (fun x v => v.Stands False x)
      ((expansion (.verbatim name a) s).run.run w)
      ((expansion (.verbatim name b) s).run.run w') := by
  have hrun : ∀ (content : Text) (w : Work), ∃ ws, Definition.argumentWarnings
      (.verbatim name []) s.args (Argument.positional s.args).length = ws ∧
      (expansion (.verbatim name content) s).run.run w =
        (protect content).run.run { w with context := w.context.warn ws } := fun content w =>
    ⟨_, rfl, rfl⟩
  obtain ⟨ws, rfl, hleft⟩ := hrun a w
  obtain ⟨ws, rfl, hright⟩ := hrun b w'
  rw [hleft, hright]
  refine Alike.after ?_ (alike_protect (h.warn _) (.inr ⟨rfl, rfl⟩) ha)
  exact List.prefix_refl _

theorem alike_slot? {s : Slot} (h : Twins name a b w w') (ha : w.vault.Stands False a)
    (hargs : ∀ c ∈ s.args, c.Stands False w.vault) : Alike name a b w (fun r v => ∀ x ∈ r, v.Stands False x.1)
      ((slot? {} s).run.run w) ((slot? {} s).run.run w') := by
  unfold slot?
  cases s.expr with
  | some e =>
      refine Alike.bind (P := fun r v => ∀ x ∈ r, v.Stands False x) ?_ fun _ _ hu hr => .now hu ?_
      · rw [run_arithmetic, run_arithmetic, h.scope_eq]
        split
        · cases e.eval w.context.definitions.scope with
          | error f => exact .error _
          | ok x => exact .now h fun t ht => Option.some.inj ht ▸ stands_formatNumber w.vault x
        · exact .now h (by simp)
      · intro x hx
        obtain ⟨t, ht, rfl⟩ := Option.map_eq_some_iff.1 hx
        exact hr t ht
  | none =>
      have hsome : ∀ {d e : Definition}, Alike name a b w (fun x v => v.Stands False x)
          ((expansion d s).run.run w) ((expansion e s).run.run w') →
          Alike name a b w (fun r v => ∀ x ∈ r, v.Stands False x.1)
            ((expansion d s >>= fun t => pure (some (t, ([] : List Attachment)))).run.run w)
            ((expansion e s >>= fun t => pure (some (t, ([] : List Attachment)))).run.run w') := by
        refine fun hrun => hrun.bind fun _ _ hu ht => .now hu fun x hx => ?_
        obtain rfl := Option.some.inj hx
        exact ht
      simp only
      rw [run_bind_ok _ (run_get w), run_bind_ok _ (run_get w')]
      by_cases hname : s.name = name
      · rw [hname, h.left, h.right]
        exact hsome (alike_expansion_verbatim s h ha)
      · rw [h.others s.name hname]
        cases hd : w.context.definitions.get? s.name with
        | none => exact .now h (by simp)
        | some d => exact hsome (alike_expansion h (h.stands _ _ hd) hargs)

/-! ## Nodes -/

theorem alike_outcome {n : Node} (h : Twins name a b w w') (ha : w.vault.Stands False a)
    (hn : n.Stands False w.vault) : Alike name a b w (fun o v => v.Stands False o.text)
      ((outcome {} n).run.run w) ((outcome {} n).run.run w') := by
  cases n with
  | text t => exact .now h hn
  | define d source => exact .now h (.nil w.vault)
  | slot s z =>
      obtain ⟨hz, hs⟩ := hn
      refine (alike_slot? h ha (hz.stands hs)).bind fun _ hgrow hu hr => ?_
      split
      · exact .now hu (hs.grow hgrow)
      next t attached _ => exact .now hu (hr _ rfl)

theorem alike_outcomes : ∀ {ns : List Node} {w w' : Work}, Twins name a b w w' → w.vault.Stands False a →
    (∀ n ∈ ns, n.Stands False w.vault) → Alike name a b w (fun os v => ∀ o ∈ os, v.Stands False o.text)
      ((outcomes {} ns).run.run w) ((outcomes {} ns).run.run w') := by
  intro ns
  induction ns with
  | nil => intro w w' h _ _; exact .now h (by simp)
  | cons n ns ih =>
      intro w w' h ha hns
      obtain ⟨hn, hns⟩ := List.forall_mem_cons.1 hns
      -- the later nodes are treated first
      refine (ih h ha hns).bind fun _ hgrow hu hlater => ?_
      refine (alike_outcome hu (ha.grow hgrow) (hn.grow hgrow)).bind fun _ hmore hu' ho => ?_
      exact .now hu' (List.forall_mem_cons.2 ⟨ho, fun o' ho' => (hlater o' ho').grow hmore⟩)

theorem alike_defineAll (first : Bool) : ∀ {ns : List Node} {w w' : Work}, Twins name a b w w' →
    (∀ d ∈ definitions ns, d.name ≠ name) → (∀ n ∈ ns, n.Stands False w.vault) →
    Alike name a b w (fun _ _ => True)
      ((defineAll {} first ns).run.run w) ((defineAll {} first ns).run.run w') := by
  intro ns
  induction ns with
  | nil => intro w w' h _ _; exact .now h trivial
  | cons n ns ih =>
      intro w w' h hnames hns
      obtain ⟨hn, hrest⟩ := List.forall_mem_cons.1 hns
      cases n with
      | text t => exact ih h hnames hrest
      | slot s z => exact ih h hnames hrest
      | define d source =>
          obtain ⟨hname, hnames⟩ := List.forall_mem_cons.1 hnames
          obtain ⟨-, -, -, hd⟩ := hn
          rw [run_defineAll_define, run_defineAll_define, h.others d.name hname, h.contains_eq]
          split
          · exact ih h hnames hrest
          · split
            · exact .error _
            · split
              · exact .error _
              · refine Alike.after ?_ (ih (h.enter hname hd) hnames hrest)
                exact List.prefix_refl _

/-! ## Passes -/

theorem alike_pass (first : Bool) {t : Text} (h : Twins name a b w w') (ha : w.vault.Stands False a)
    (ht : w.vault.Stands False t) (hname : defines name t = false) :
    Alike name a b w (fun r v => v.Stands False r.1)
      ((pass {} first t).run.run w) ((pass {} first t).run.run w') := by
  cases hns : parse t with
  | error e =>
      rw [pass, hns]
      exact .error e
  | ok ns =>
      rw [pass_of_parse hns]
      have hstands := (located_of_parse hns).stands ht
      refine (alike_defineAll first h (ne_of_defines hns hname) hstands).bind fun _ hgrow hu _ => ?_
      refine (alike_outcomes hu (ha.grow hgrow) fun n hn => (hstands n hn).grow hgrow).bind ?_
      intro os u u' _ _ hu' hos
      rw [run_bind_ok _ (run_modify ..), run_bind_ok _ (run_modify ..)]
      exact .ok (List.prefix_refl _) (hu'.attach _) (.flatMap hos)

/-- One pass, and the passes behind it if the text changed. -/
theorem alike_pass_bind {n : Nat}
    (ih : ∀ {t : Text} {w w' : Work}, Twins name a b w w' → w.vault.Stands False a → w.vault.Stands False t →
      (∀ u ∈ passTexts {} n false t w, defines name u = false) →
      Alike name a b w (fun u v => v.Stands False u)
        ((passes {} n false t).run.run w) ((passes {} n false t).run.run w'))
    (first : Bool) {t : Text} {w w' : Work} (h : Twins name a b w w') (ha : w.vault.Stands False a)
    (ht : w.vault.Stands False t)
    (hnames : ∀ u ∈ (match (pass {} first t).run.run w with
      | (.ok (u, true), w) => t :: passTexts {} n false u w
      | _ => [t]), defines name u = false) :
    Alike name a b w (fun u v => v.Stands False u)
      ((pass {} first t >>= fun (u, changed) =>
        if changed then passes {} n false u else return u).run.run w)
      ((pass {} first t >>= fun (u, changed) =>
        if changed then passes {} n false u else return u).run.run w') := by
  have hown : defines name t = false := by
    refine hnames t ?_
    split <;> simp
  refine (alike_pass first h ha ht hown).bind ?_
  intro r u u' hrun hgrow hu hr
  obtain ⟨x, changed⟩ := r
  rw [hrun] at hnames
  cases changed with
  | false => exact .now hu hr
  | true => exact ih hu (ha.grow hgrow) hr (List.forall_mem_cons.1 hnames).2

/-- By induction on the number of passes, which read the same texts. -/
theorem alike_passes : ∀ (n : Nat) (first : Bool) {t : Text} {w w' : Work}, Twins name a b w w' →
    w.vault.Stands False a → w.vault.Stands False t →
    (∀ u ∈ passTexts {} n first t w, defines name u = false) →
    Alike name a b w (fun u v => v.Stands False u)
      ((passes {} n first t).run.run w) ((passes {} n first t).run.run w') := by
  intro n
  induction n with
  | zero => intro first t w w' h _ ht _; exact .now h ht
  | succ n ih =>
      intro first t w w' h ha ht hnames
      cases first with
      | true => exact alike_pass_bind (ih false) true h ha ht hnames
      | false =>
          obtain ⟨htext, hvault⟩ := h.vault.mask t
          have hgrow := w.vault.grow_mask t
          rw [passes_later, run_bind_ok _ (run_mask t w), run_bind_ok _ (run_mask t w'), htext]
          exact (alike_pass_bind (ih false) false (h.withVault hgrow hvault) (ha.grow hgrow) ht.mask
            hnames).after hgrow

theorem twins_holding {c : Context} {v : Vault} (ha : placeholderOpen ∉ a)
    (hothers : ∀ n d, n ≠ name → c.definitions.get? n = some d → d.Unmarked) :
    Twins name a b ⟨c.holding name a, v⟩ ⟨c.holding name b, v⟩ := by
  refine ⟨.refl a b v, ?_, ?_, fun n hn => ?_, fun n d hd => ?_⟩
  · exact (NameMap.get?_insert ..).trans (if_pos rfl)
  · exact (NameMap.get?_insert ..).trans (if_pos rfl)
  · simp only [Context.holding, NameMap.get?_insert, if_neg hn]
  · simp only [Context.holding, NameMap.get?_insert] at hd
    split at hd
    · obtain rfl := Option.some.inj hd
      exact ⟨.of_not_mem v ha nofun, fun p hp => absurd hp (by simp [Definition.verbatim])⟩
    next hn =>
      obtain ⟨hcontent, hoptional⟩ := hothers n d hn hd
      exact ⟨.of_not_mem v hcontent nofun,
        fun p hp t ht => .of_not_mem v (hoptional p hp t ht) nofun⟩

end Rendering

namespace Engine

open Rendering

def passTexts (engine : Engine) (t : Text) (c : Context) : List Text :=
  Rendering.passTexts engine maxPasses true (prepare t).1 { context := c, vault := (prepare t).2 }

/-- Two renderings in contexts that differ in the content of a raw variable fail with the same error, or
their outputs have the same parts, with the one content or the other between them. The content may be
anything without the first character of placeholders. -/
theorem render_holding (c : Context) (t name a b : Text) (hoptions : c.options.matchesOnly = false)
    (ht : placeholderOpen ∉ t) (ha : placeholderOpen ∉ a) (hb : placeholderOpen ∉ b)
    (hothers : ∀ n d, n ≠ name → c.definitions.get? n = some d → d.Unmarked)
    (hnever : ∀ u ∈ ({} : Engine).passTexts t (c.holding name a), defines name u = false) :
    (∃ e, (({} : Engine).render t (c.holding name a)).1 = .error e ∧
      (({} : Engine).render t (c.holding name b)).1 = .error e) ∨
    ∃ ss ≠ [], (({} : Engine).render t (c.holding name a)).1 = .ok (.text (a.intercalate ss)) ∧
      (({} : Engine).render t (c.holding name b)).1 = .ok (.text (b.intercalate ss)) := by
  have hrun := alike_passes maxPasses true (twins_holding (v := (prepare t).2) (b := b) ha hothers)
    (.of_not_mem _ ha nofun) (stands_prepare ht nofun) hnever
  have hkept : ∀ content, (c.holding name content).options.matchesOnly = false :=
    fun _ => hoptions
  rw [render_eq _ t (hkept a), render_eq _ t (hkept b)]
  generalize (passes {} maxPasses true (prepare t).1).run.run ⟨c.holding name a, (prepare t).2⟩ = p,
    (passes {} maxPasses true (prepare t).1).run.run ⟨c.holding name b, (prepare t).2⟩ = q at hrun
  cases hrun with
  | error e => exact .inl ⟨e, rfl, rfl⟩
  | @ok x u u' _ hu hx =>
      obtain ⟨ss, hne, hleft, hright⟩ := (hx.exchanged hu.vault ha hb).exists_intercalate
      exact .inr ⟨ss, hne, by simp only [hleft], by simp only [hright]⟩

def insertingText : Text := bracketed "[say(w)]<[[w]][[r]]>[/say][[say(\"[[r]]\")]]![[r]] [[q]]"

def signsText : Text := bracketed "[[r]] [/say] \" /* ` //"

def quotingContext : Context :=
  { definitions := ⟨[(['q'], { name := ['q'], optional := [(['d'], .text (bracketed "[[r]]"))]
                               content := bracketed "([[d]])" })]⟩ }

/-- Five insertions, with the signs and with a digit. -/
theorem render_holding_signs : placeholderOpen ∉ insertingText ∧ placeholderOpen ∉ signsText ∧
    (∀ u ∈ ({} : Engine).passTexts insertingText (quotingContext.holding ['r'] signsText),
      defines ['r'] u = false) ∧
    ∃ ss ≠ [],
      (({} : Engine).render insertingText (quotingContext.holding ['r'] signsText)).1 =
        .ok (.text (signsText.intercalate ss)) ∧
      (({} : Engine).render insertingText (quotingContext.holding ['r'] ['7'])).1 =
        .ok (.text (['7'].intercalate ss)) := by
  have hothers : ∀ n d, n ≠ ['r'] → quotingContext.definitions.get? n = some d → d.Unmarked := by
    intro n d _ hd
    have hmem : (n, d) ∈ quotingContext.definitions.entries := Substitution.mem_of_lookup hd
    obtain ⟨-, rfl⟩ := Prod.mk.inj (List.mem_singleton.1 hmem)
    exact ⟨by decide, by simp [bracketed, placeholderOpen]⟩
  have hnever : ∀ u ∈ ({} : Engine).passTexts insertingText
      (quotingContext.holding ['r'] signsText), defines ['r'] u = false := by decide +kernel
  have hok : (({} : Engine).render insertingText
      (quotingContext.holding ['r'] signsText)).1.isOk = true := by decide +kernel
  refine ⟨by decide, by decide, hnever, ?_⟩
  rcases render_holding quotingContext insertingText ['r'] signsText ['7'] rfl (by decide) (by decide)
    (by decide) hothers hnever with ⟨e, he, -⟩ | hparts
  · rw [he] at hok
    cases hok
  · exact hparts

/-! ## Placeholders that defaults make -/

theorem length_intercalate_congr {a b : Text} (h : a.length = b.length) (ss : List Text) :
    (a.intercalate ss).length = (b.intercalate ss).length := by
  induction ss with
  | nil => rfl
  | cons s ss ih =>
      cases ss with
      | nil => simp
      | cons t ss => simp only [List.intercalate_cons_cons, List.length_append, ih, h]

/-- The context with `q`, which puts the halves of a placeholder around `r`. The contents are free of them,
the defaults are not. -/
def halvesContext : Context :=
  { definitions := ⟨[(['q'],
      { name := ['q'], content := bracketed "[[a]][[r]][[b]]"
        optional := [(['a'], .text [placeholderOpen]), (['b'], .text [placeholderClose])] })]⟩ }

/-- A zero between the halves is the number of a segment and becomes this segment, a five stays: the
outputs have not the same parts. -/
theorem render_halvesContext :
    (∀ t ∈ [bracketed "[[q]]", ['0'], ['5']], placeholderOpen ∉ t ∧ placeholderClose ∉ t) ∧
    (∀ n d, halvesContext.definitions.get? n = some d →
      placeholderOpen ∉ d.content ∧ placeholderClose ∉ d.content) ∧
    (∀ content ∈ [['0'], ['5']], ∀ u ∈ ({} : Engine).passTexts (bracketed "[[q]]")
      (halvesContext.holding ['r'] content), defines ['r'] u = false) ∧
    (({} : Engine).render (bracketed "[[q]]") (halvesContext.holding ['r'] ['0'])).1 =
      .ok (.text ['0']) ∧
    (({} : Engine).render (bracketed "[[q]]") (halvesContext.holding ['r'] ['5'])).1 =
      .ok (.text [placeholderOpen, '5', placeholderClose]) ∧
    ¬((∃ e, (({} : Engine).render (bracketed "[[q]]") (halvesContext.holding ['r'] ['0'])).1 =
          .error e ∧
        (({} : Engine).render (bracketed "[[q]]") (halvesContext.holding ['r'] ['5'])).1 =
          .error e) ∨
      ∃ ss ≠ [],
        (({} : Engine).render (bracketed "[[q]]") (halvesContext.holding ['r'] ['0'])).1 =
          .ok (.text (['0'].intercalate ss)) ∧
        (({} : Engine).render (bracketed "[[q]]") (halvesContext.holding ['r'] ['5'])).1 =
          .ok (.text (['5'].intercalate ss))) := by
  have hzero : (({} : Engine).render (bracketed "[[q]]") (halvesContext.holding ['r'] ['0'])).1 =
      .ok (.text ['0']) := by decide +kernel
  have hfive : (({} : Engine).render (bracketed "[[q]]") (halvesContext.holding ['r'] ['5'])).1 =
      .ok (.text [placeholderOpen, '5', placeholderClose]) := by decide +kernel
  refine ⟨by decide, fun n d hd => ?_, by decide +kernel, hzero, hfive, ?_⟩
  · have hmem : (n, d) ∈ halvesContext.definitions.entries := Substitution.mem_of_lookup hd
    obtain ⟨-, rfl⟩ := Prod.mk.inj (List.mem_singleton.1 hmem)
    exact ⟨by decide, by decide⟩
  · rw [hzero, hfive]
    rintro (⟨e, he, -⟩ | ⟨ss, -, hleft, hright⟩)
    · cases he
    have hlength := length_intercalate_congr (a := ['0']) (b := ['5']) rfl ss
    rw [← Output.text.inj (Except.ok.inj hleft), ← Output.text.inj (Except.ok.inj hright)] at hlength
    exact absurd hlength (by decide)

end Engine
end Stencil
