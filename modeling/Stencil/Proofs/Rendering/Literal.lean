import Stencil.Proofs.Code.Stripping
import Stencil.Proofs.Rendering.Calm
import Stencil.Proofs.Substitution.Content

/-! # Literal text

A plain template has slots that are names without arguments, and definitions that are single tags with
values free of braces, backticks and slashes. Its first pass gives its text, nothing for its definitions
and a value for each slot that has one, but the text is read again: a brace that stayed text may begin a
tag with what was put behind it. The output is what the first pass gives if the second one finds nothing to
do (`render_plain`), and so it is where no text has a brace. -/
set_option autoImplicit false
namespace Stencil

open Vault (Restores placeholder)
open SymbolTable (Shown)

/-- All definitions are single tags with harmless values, and all slots are names without arguments. -/
def PlainNodes (v : Vault) (ns : List Node) : Prop :=
  (∀ d source, .define d source ∈ ns → source.body = none ∧
    ∀ c ∈ v.restore d.content, c ≠ '{' ∧ c ≠ '}' ∧ c ≠ '`' ∧ c ≠ '/') ∧
  ∀ s z, .slot s z ∈ ns → s.Plain

namespace Rendering

/-- The text that the first pass reads, and the code that was in it. -/
def prepare (t : Text) : Text × Vault := (Comment.strip (Vault.empty.mask t).1, (Vault.empty.mask t).2)

def fresh (o : Options) (t : Text) : Work := { context := { options := o }, vault := (prepare t).2 }

/-- The next pass finds nothing to do in the text: it reads it, and all it reads stays as it is. -/
def Quiet (t : Text) (w : Work) : Prop :=
  ∃ ns, parse (w.vault.mask t).1 = .ok ns ∧ ∀ n ∈ ns, w.context.definitions.leaves n = true

/-- The later passes over what the first one gave give a text that stands for the same. -/
def Kept (t : Text) (w : Work) : Prop :=
  ∃ x w', (passes {} (maxPasses - 1) false t).run.run w = (.ok x, w') ∧
    w'.vault.restore x = w.vault.restore t

/-! ## The parts of a plain template -/

theorem stands_prepare {strict : Prop} {t : Text} (ht : placeholderOpen ∉ t)
    (hclose : strict → placeholderClose ∉ t) : (prepare t).2.Stands strict (prepare t).1 :=
  Comment.stands_strip (Vault.Stands.of_not_mem .empty ht hclose).mask

variable {o : Options} {t : Text} {ns : List Node}

theorem stands_text {s : Text} (ht : placeholderOpen ∉ t) (hns : parse (prepare t).1 = .ok ns)
    (hs : .text s ∈ ns) : (prepare t).2.Stands False s :=
  (located_of_parse hns).stands (stands_prepare ht nofun) _ hs

/-- A value has no code, for code has backticks. -/
theorem content_plain {d : Definition} {source : DefinitionSource} (ht : placeholderOpen ∉ t)
    (hns : parse (prepare t).1 = .ok ns) (hplain : PlainNodes (prepare t).2 ns)
    (hd : .define d source ∈ ns) : d.Plain ∧ placeholderOpen ∉ d.content ∧ '{' ∉ d.content := by
  obtain ⟨hbody, hvalue⟩ := hplain.1 d source hd
  have hlocated := located_of_parse hns
  obtain ⟨c₁, next, hlead, hdef⟩ := hlocated.exists_define hd
  obtain ⟨htext, -, -⟩ := exists_of_definition_single hlead hdef hbody
  obtain ⟨hrequired, hoptional, -⟩ := htext.exists_of_single
  have hstands : (prepare t).2.Stands False (prepare t).1 := stands_prepare ht nofun
  obtain ⟨-, -, -, ⟨q, hq, -⟩, -⟩ := hlocated.stands hstands _ hd
  have hopen : placeholderOpen ∉ d.content := by
    intro hmem
    have htick : '`' ∈ q := hq.tick_mem (Vault.tick_mem_mask t) (.inr hmem)
    rw [← Vault.restore_of_restores hq (Nat.le_refl _)] at htick
    exact (hvalue _ htick).2.2.1 rfl
  rw [Vault.restore_of_not_mem _ hopen] at hvalue
  exact ⟨⟨hrequired, hoptional⟩, hopen, fun hmem => (hvalue _ hmem).1 rfl⟩

theorem slot_plain {v : Vault} {s : Slot} {z : Text} (hns : parse (prepare t).1 = .ok ns)
    (hplain : PlainNodes v ns) (hs : .slot s z ∈ ns) : SlotText z s ∧ placeholderOpen ∉ z := by
  have hz := (located_of_parse hns).slotText hs
  obtain ⟨hexpr, hargs⟩ := hplain.2 s z hs
  exact ⟨hz, fun hmem => absurd (hz.isSlotChar hexpr hargs _ hmem) (by decide)⟩

/-- The table after the definitions of the first pass are entered. -/
theorem entry_plain {w : Work} (ht : placeholderOpen ∉ t) (hns : parse (prepare t).1 = .ok ns)
    (hplain : PlainNodes (prepare t).2 ns)
    (hw : (defineAll {} true ns).run.run (fresh o t) = (.ok (), w)) {name : Text} {d : Definition}
    (hd : w.context.definitions.get? name = some d) :
    d.Plain ∧ placeholderOpen ∉ d.content ∧ '{' ∉ d.content := by
  rcases mem_of_run_defineAll hw hd with hnone | hmem
  · cases hnone
  · obtain ⟨source, hsource⟩ := exists_mem_of_mem_definitions hmem
    exact content_plain ht hns hplain hsource

/-! ## The passes -/

theorem run_mask (t : Text) (w : Work) :
    (mask t).run.run w = (.ok (w.vault.mask t).1, { w with vault := (w.vault.mask t).2 }) := rfl

theorem quiet_iff (t : Text) (w : Work) : Quiet t w ↔
    ∃ w', (mask t >>= pass {} false).run.run w = (.ok ((w.vault.mask t).1, false), w') := by
  rw [run_bind_ok _ (run_mask t w), ← run_pass_iff_leaves]
  simp only [Quiet, Engine.leaves_empty]

/-- The first pass. -/
theorem run_pass_plain {w : Work} (hns : parse (prepare t).1 = .ok ns)
    (hplain : PlainNodes (prepare t).2 ns)
    (htable : ∀ name d, w.context.definitions.get? name = some d → d.Plain)
    (hw : (defineAll {} true ns).run.run (fresh o t) = (.ok (), w)) :
    ∃ u changed w₁, (pass {} true (prepare t).1).run.run (fresh o t) = (.ok (u, changed), w₁) ∧
      w₁.context = w.context ∧ (prepare t).2.segments <+: w₁.vault.segments ∧
      Shown w.context.definitions w₁.vault ns u := by
  obtain ⟨done, w₁, hdone, hcontext, hgrow, hshown, hattached⟩ := run_outcomes_plain hplain.2 htable
  have hvault : w.vault = (prepare t).2 := (keeps_of_run_defineAll hw).1
  rw [hvault] at hgrow
  refine ⟨done.flatMap Outcome.text, done.any Outcome.changed, w₁, ?_, hcontext, hgrow, hshown⟩
  rw [pass_of_parse hns, run_bind_ok _ hw, replaceAll, run_bind_ok _ hdone,
    run_bind_ok _ (run_modify ..), run_pure, hattached, List.append_nil]

theorem passes_first (engine : Engine) (n : Nat) (t : Text) : passes engine (n + 1) true t =
    pass engine true t >>= fun (u, changed) =>
      if changed then passes engine n false u else return u := rfl

theorem passes_later (engine : Engine) (n : Nat) (t : Text) : passes engine (n + 1) false t =
    mask t >>= fun t => pass engine false t >>= fun (u, changed) =>
      if changed then passes engine n false u else return u := rfl

/-- If the second pass has nothing to do it is the last one. -/
theorem kept_of_quiet {u r : Text} {w : Work} (hquiet : Quiet u w)
    (hr : Restores w.vault w.vault.segments.length u r) : Kept u w := by
  obtain ⟨ms, hms, hleaves⟩ := hquiet
  let w' : Work := { w with vault := (w.vault.mask u).2 }
  have hsecond : (pass {} false (w.vault.mask u).1).run.run w' =
      (.ok ((w.vault.mask u).1, false), w') :=
    run_pass_of_leaves hms fun n hn => (Engine.leaves_empty _ n).trans (hleaves n hn)
  refine ⟨(w.vault.mask u).1, w', ?_, ?_⟩
  · rw [maxPasses, passes_later, run_bind_ok _ (run_mask u w), run_bind_ok _ hsecond]
    rfl
  · rw [Vault.restore_of_restores hr (Nat.le_refl _)]
    exact Vault.restore_of_restores (Vault.restores_mask hr) (Nat.le_refl _)

theorem quiet_of_calm {u : Text} {w : Work}
    (h : Calm (fun s => w.context.definitions.get? s.name = none) u) : Quiet u w := by
  obtain ⟨ms, hms, hslots, hdefines⟩ := (calm_mask h w.vault).exists_reads
  refine ⟨ms, parse_of_reads hms, fun n hn => ?_⟩
  cases n with
  | text s => rfl
  | define d source => exact absurd hn (hdefines d source)
  | slot s z =>
      obtain ⟨hplain, hname⟩ := hslots s z hn
      simp [SymbolTable.leaves, SymbolTable.replaces, hplain.1, NameMap.contains, hname]

theorem calm_of_shown {table : SymbolTable} {v : Vault} {u : Text} (h : Shown table v ns u)
    (htable : ∀ name d, table.get? name = some d → '{' ∉ d.content) :
    (∀ s, .text s ∈ ns → '{' ∉ s) → (∀ s z, .slot s z ∈ ns → s.Plain ∧ SlotText z s) →
    Calm (fun s => table.get? s.name = none) u := by
  induction h with
  | nil => intro _ _; exact .nil
  | @text s t ns _ ih =>
      intro htexts hslots
      exact (Calm.of_not_mem (htexts s (List.mem_cons_self ..))).append
        (ih (fun s hs => htexts s (List.mem_cons_of_mem _ hs))
          fun s z hs => hslots s z (List.mem_cons_of_mem _ hs))
  | define _ ih =>
      intro htexts hslots
      exact ih (fun s hs => htexts s (List.mem_cons_of_mem _ hs))
        fun s z hs => hslots s z (List.mem_cons_of_mem _ hs)
  | @stays s z t ns hname _ ih =>
      intro htexts hslots
      obtain ⟨hplain, hz⟩ := hslots s z (List.mem_cons_self ..)
      exact .slot hz hplain hname (ih (fun s hs => htexts s (List.mem_cons_of_mem _ hs))
        fun s z hs => hslots s z (List.mem_cons_of_mem _ hs))
  | value hname _ ih =>
      intro htexts hslots
      exact (Calm.of_not_mem (htable _ _ hname)).append
        (ih (fun s hs => htexts s (List.mem_cons_of_mem _ hs))
          fun s z hs => hslots s z (List.mem_cons_of_mem _ hs))
  | mark _ _ _ ih =>
      intro htexts hslots
      exact (Calm.of_not_mem (Vault.brace_not_mem_placeholder _)).append
        (ih (fun s hs => htexts s (List.mem_cons_of_mem _ hs))
          fun s z hs => hslots s z (List.mem_cons_of_mem _ hs))

theorem run_whole (engine : Engine) (t : Text) {c : Context} (hc : c.options.matchesOnly = false) :
    (whole engine t).run.run { context := c, vault := .empty } =
      (passes engine maxPasses true (prepare t).1 >>= fun u => do
        return .text ((← get).vault.restore u)).run.run { context := c, vault := (prepare t).2 } := by
  have hmask : (mask t).run.run { context := c, vault := .empty } =
      (.ok (Vault.empty.mask t).1, { context := c, vault := (prepare t).2 }) := rfl
  rw [whole, run_bind_ok _ hmask, run_bind_ok _ (run_get _), hc]
  rfl

end Rendering

namespace Engine

open Rendering

theorem render_run {c : Context} (engine : Engine) (t : Text) (hc : c.options.matchesOnly = false) :
    engine.render t c =
      match (passes engine maxPasses true (prepare t).1).run.run ⟨c, (prepare t).2⟩ with
      | (.ok x, w) => (.ok (.text (w.vault.restore x)), w.context)
      | (.error e, w) => (.error e, w.context) := by
  rw [render, run_whole engine t hc, run_bind]
  obtain ⟨r, w⟩ := (passes engine maxPasses true (prepare t).1).run.run ⟨c, (prepare t).2⟩
  cases r with
  | ok x => rfl
  | error e => rfl

/-- Listing the slots has nothing to do with functions, and leaves the context as it is. -/
theorem render_slots {c : Context} (engine : Engine) (t : Text) (hc : c.options.matchesOnly = true) :
    engine.render t c = ((slotMatches (prepare t).1).map .slots, c) := by
  have hmask : (mask t).run.run { context := c, vault := .empty } =
      (.ok (Vault.empty.mask t).1, { context := c, vault := (prepare t).2 }) := rfl
  rw [render, whole, run_bind_ok _ hmask, run_bind_ok _ (run_get _), hc, if_pos rfl, prepare]
  cases slotMatches (Comment.strip (Vault.empty.mask t).1) <;> rfl

theorem render_eq {c : Context} (engine : Engine) (t : Text) (hc : c.options.matchesOnly = false) :
    (engine.render t c).1 =
      match (passes engine maxPasses true (prepare t).1).run.run ⟨c, (prepare t).2⟩ with
      | (.ok x, w) => .ok (.text (w.vault.restore x))
      | (.error e, _) => .error e := by
  rw [render_run engine t hc]
  obtain ⟨r, w⟩ := (passes engine maxPasses true (prepare t).1).run.run ⟨c, (prepare t).2⟩
  cases r with
  | ok x => rfl
  | error e => rfl

/-- The output is what the first pass gives exactly if the later ones keep it. -/
theorem render_eq_iff {o : Options} {t u : Text} {changed : Bool} {w : Work}
    (ho : o.matchesOnly = false)
    (h : (pass {} true (prepare t).1).run.run (fresh o t) = (.ok (u, changed), w)) :
    (({} : Engine).render t { options := o }).1 = .ok (.text (w.vault.restore u)) ↔
      (changed = true → Kept u w) := by
  rw [render_eq _ t ho, ← fresh, maxPasses, passes_first, run_bind_ok _ h]
  cases changed with
  | false =>
      constructor
      · intro _ hchanged
        cases hchanged
      · intro _
        rfl
  | true =>
      simp only [if_true, Kept, maxPasses, true_implies]
      cases hlater : (passes {} 4 false u).run.run w with
      | mk r w' =>
          cases r with
          | error e =>
              constructor
              · intro heq
                cases heq
              · rintro ⟨x, v, heq, -⟩
                cases (Prod.mk.inj heq).1
          | ok x =>
              constructor
              · intro heq
                exact ⟨x, w', rfl, Output.text.inj (Except.ok.inj heq)⟩
              · rintro ⟨y, v, heq, hrestored⟩
                obtain ⟨hy, rfl⟩ := Prod.mk.inj heq
                obtain rfl := Except.ok.inj hy
                simp only [hrestored]

/-- The first pass over a plain template gives its text, its values and the sources of its other slots, and
so does the rendering exactly if the later passes keep this. They do if the second one finds nothing to do,
and without braces in the text it finds nothing. -/
theorem render_plain (o : Options) (t : Text) (ns : List Node) (w : Work)
    (ho : o.matchesOnly = false) (ht : placeholderOpen ∉ t) (hns : parse (prepare t).1 = .ok ns)
    (hplain : PlainNodes (prepare t).2 ns)
    (hw : (defineAll {} true ns).run.run (fresh o t) = (.ok (), w)) :
    ∃ u changed w₁, (pass {} true (prepare t).1).run.run (fresh o t) = (.ok (u, changed), w₁) ∧
      w₁.vault.restore u = ns.flatMap (w.context.definitions.shown (prepare t).2) ∧
      ((({} : Engine).render t { options := o }).1 =
          .ok (.text (ns.flatMap (w.context.definitions.shown (prepare t).2))) ↔
        (changed = true → Kept u w₁)) ∧
      (Quiet u w₁ → Kept u w₁) ∧
      (Quiet u w₁ ↔ ∃ w₂, (mask u >>= pass {} false).run.run w₁ =
        (.ok ((w₁.vault.mask u).1, false), w₂)) ∧
      ((∀ s, .text s ∈ ns → '{' ∉ s) → Quiet u w₁) := by
  have htable : ∀ name d, w.context.definitions.get? name = some d →
      d.Plain ∧ placeholderOpen ∉ d.content ∧ '{' ∉ d.content :=
    fun name d hd => entry_plain ht hns hplain hw hd
  obtain ⟨u, changed, w₁, hpass, hcontext, hgrow, hshown⟩ :=
    run_pass_plain hns hplain (fun name d hd => (htable name d hd).1) hw
  have hr := hshown.restores hgrow (fun name d hd => (htable name d hd).2.1)
    (fun s hs => stands_text ht hns hs) fun s z hs => (slot_plain hns hplain hs).2
  have hfirst := Vault.restore_of_restores hr (Nat.le_refl _)
  refine ⟨u, changed, w₁, hpass, hfirst, ?_, fun hquiet => kept_of_quiet hquiet hr,
    quiet_iff u w₁, fun htexts => ?_⟩
  · rw [← hfirst]
    exact render_eq_iff ho hpass
  · apply quiet_of_calm
    rw [hcontext]
    exact calm_of_shown hshown (fun name d hd => (htable name d hd).2.2) htexts
      fun s z hs => ⟨hplain.2 s z hs, (slot_plain hns hplain hs).1⟩

def fiveText : Text := bracketed "[x=\"5\"]"

def five : Definition := { name := ['x'], content := ['5'] }

def fiveNodes (ns : List Node) : List Node := .define five ⟨fiveText, none, []⟩ :: ns

def calmText : Text := fiveText ++ "`{{x}}` is {{@x}} and {{y}}".toList

def calmNodes : List Node := fiveNodes
  [.text (placeholder 0 ++ " is ".toList), .slot ⟨['x'], [], true, none⟩ "{{@x}}".toList,
    .text " and ".toList, .slot ⟨['y'], [], false, none⟩ "{{y}}".toList]

theorem plainNodes_five {v : Vault} {ns : List Node} (hv : v.restore ['5'] = ['5'])
    (hdefines : ∀ d source, .define d source ∉ ns) (hslots : ∀ s z, .slot s z ∈ ns → s.Plain) :
    PlainNodes v (fiveNodes ns) := by
  refine ⟨fun d source hd => ?_, fun s z hs => hslots s z (by simpa [fiveNodes] using hs)⟩
  rcases List.mem_cons.1 hd with heq | hd
  · obtain ⟨rfl, rfl⟩ := Node.define.inj heq
    refine ⟨rfl, fun c hc => ?_⟩
    rw [five, hv] at hc
    obtain rfl : c = '5' := by simpa using hc
    decide
  · exact absurd hd (hdefines d source)

/-- Nothing in the text is a brace, so the output is that of the first pass. -/
theorem render_calmText : parse (prepare calmText).1 = .ok calmNodes ∧
    (({} : Engine).render calmText { options := {} }).1 =
      .ok (.text "`{{x}}` is 5 and {{y}}".toList) := by
  have hns : parse (prepare calmText).1 = .ok calmNodes := by decide +kernel
  have hslots : ∀ s z, .slot s z ∈ calmNodes → s.Plain := by
    intro s z hs
    simp only [calmNodes, fiveNodes, List.mem_cons, reduceCtorEq, List.not_mem_nil, false_or,
      or_false, Node.slot.injEq] at hs
    rcases hs with ⟨rfl, -⟩ | ⟨rfl, -⟩ <;> exact ⟨rfl, rfl⟩
  have hplain : PlainNodes (prepare calmText).2 calmNodes :=
    plainNodes_five (by decide +kernel) (by simp) fun s z hs =>
      hslots s z (List.mem_cons_of_mem _ hs)
  have htexts : ∀ s, .text s ∈ calmNodes → '{' ∉ s := by
    intro s hs
    simp only [calmNodes, fiveNodes, List.mem_cons, reduceCtorEq, List.not_mem_nil, false_or,
      or_false, Node.text.injEq] at hs
    rcases hs with rfl | rfl <;> decide
  obtain ⟨u, changed, w₁, -, -, houtput, hkept, -, hquiet⟩ := render_plain {} calmText calmNodes
    (enter five (fresh {} calmText)) rfl (by decide) hns hplain rfl
  refine ⟨hns, ?_⟩
  rw [houtput.2 fun _ => hkept (hquiet htexts)]
  decide +kernel

def tripleText : Text := fiveText ++ "{{{x}}}".toList

def tripleNodes : List Node := fiveNodes
  [.text ['{'], .slot ⟨['x'], [], false, none⟩ "{{x}}".toList, .text ['}']]

/-- The brace and the value behind it are no tag, and the second pass fails. -/
theorem render_tripleText : placeholderOpen ∉ tripleText ∧
    parse (prepare tripleText).1 = .ok tripleNodes ∧
    PlainNodes (prepare tripleText).2 tripleNodes ∧
    (defineAll {} true tripleNodes).run.run (fresh {} tripleText) =
      (.ok (), enter five (fresh {} tripleText)) ∧
    tripleNodes.flatMap ((enter five (fresh {} tripleText)).context.definitions.shown
      (prepare tripleText).2) = "{5}".toList ∧
    (({} : Engine).render tripleText { options := {} }).1.toOption = none := by
  refine ⟨by decide, by decide +kernel, ?_, rfl, by decide +kernel, by decide +kernel⟩
  exact plainNodes_five (by decide +kernel) (by simp) (by simp [Slot.Plain])

def quineHalf : Text := bracketed "[[b]]@b=\"\\[\"][[b]]@y][[y]][[b]]/y][[y]]"

def quine : Text :=
  bracketed "[@b=\"\\[\"][@y]" ++ quineHalf ++ bracketed "[/y]" ++ quineHalf

def quineText : Text := bracketed "[q=\"\"][[[q]]@b=\"\\[\"][[[q]]@y]" ++ quineHalf ++
  bracketed "[[[q]]/y]" ++ quineHalf

/-- The output does not tell whether the second pass had nothing to do: here it puts back what it took. -/
theorem render_quineText :
    ((pass {} true (prepare quineText).1).run.run (fresh {} quineText)).1.toOption =
      some (quine, true) ∧
    ((parse quine).toOption.map fun ns => ns.all fun n => SymbolTable.leaves {} n) = some false ∧
    (({} : Engine).render quineText { options := {} }).1 = .ok (.text quine) := by
  decide +kernel

end Engine
end Stencil
