import Stencil.Proofs.Code.Seams
import Stencil.Proofs.Rendering.Placement

/-! # Texts that share a context

A pass that finds nothing to do could be left out (`run_pass_unchanged`). Complete lines that hold nothing but
definitions can therefore be rendered beforehand: what they would have entered is in the context then
(`Engine.render_definitions`), and the rest of the text is rendered as it would be behind them
(`Engine.render_shared`). Code in the definitions is not shared with the context. Its placeholders are, as
ordinary text. -/
set_option autoImplicit false
namespace Stencil

namespace Rendering

variable {engine : Engine}

/-! ## Passes that find nothing -/

/-- A pass that finds nothing to do leaves the text and the state alone, and a later pass over the text
does the same. -/
theorem run_pass_unchanged {t u : Text} {w w' : Work}
    (h : (pass engine true t).run.run w = (.ok (u, false), w')) :
    u = t ∧ w' = w ∧ (pass engine false t).run.run w = (.ok (t, false), w) := by
  obtain ⟨ns, hns, hleaves⟩ := leaves_of_run_pass h
  rw [run_pass_of_leaves hns hleaves] at h
  obtain ⟨heq, rfl⟩ := Prod.mk.inj h
  obtain ⟨rfl, -⟩ := Prod.mk.inj (Except.ok.inj heq)
  exact ⟨rfl, rfl, run_pass_of_leaves hns hleaves⟩

/-! ## Definitions in front -/

/-- Entering definitions changes the table alone, and it has nothing to do with the vault. -/
theorem run_defineAll_vault {first : Bool} : ∀ {ns : List Node} {c : Context} {v : Vault} {w' : Work},
    (defineAll engine first ns).run.run ⟨c, v⟩ = (.ok (), w') →
    ∃ table, w' = ⟨{ c with definitions := table }, v⟩ ∧
      ∀ u, (defineAll engine first ns).run.run ⟨c, u⟩ = (.ok (), ⟨w'.context, u⟩) := by
  intro ns
  induction ns with
  | nil =>
      intro c v w' h
      cases h
      exact ⟨c.definitions, rfl, fun _ => rfl⟩
  | cons n ns ih =>
      intro c v w' h
      cases n with
      | text t => exact ih h
      | slot s z => exact ih h
      | define d source =>
          simp only [run_defineAll_define] at h ⊢
          by_cases hsame : (!first && c.definitions.get? d.name == some d) = true
          · simp only [if_pos hsame] at h ⊢
            exact ih h
          · simp only [if_neg hsame] at h ⊢
            by_cases hname : c.definitions.contains d.name = true
            · rw [if_pos hname] at h
              cases (Prod.mk.inj h).1
            · rw [if_neg hname] at h
              simp only [if_neg hname]
              by_cases hfunction : engine.functions.contains d.name = true
              · rw [if_pos hfunction] at h
                cases (Prod.mk.inj h).1
              · rw [if_neg hfunction] at h
                simp only [if_neg hfunction]
                exact ih h

theorem outcomes_behind : ∀ {ds : List Node}, AllLines ds → ∀ ns,
    outcomes engine (ds ++ ns) = outcomes engine ns >>= fun done =>
      pure (List.replicate ds.length removed ++ done) := by
  intro ds
  induction ds with
  | nil => intro _ ns; simp
  | cons n ds ih =>
      intro hlines ns
      obtain ⟨hfirst, hrest⟩ := List.forall_mem_cons.1 hlines
      cases n with
      | text t => cases hfirst
      | slot s z => cases hfirst
      | define d source =>
          rw [List.cons_append, outcomes_define, ih hrest]
          simp only [bind_assoc, pure_bind, List.length_cons, List.replicate_succ, List.cons_append]

theorem replaceAll_behind {ds : List Node} (hlines : AllLines ds) (ns : List Node) :
    replaceAll engine (ds ++ ns) = replaceAll engine ns >>= fun (u, changed) =>
      pure (u, !ds.isEmpty || changed) := by
  have hany : (List.replicate ds.length removed).any Outcome.changed = !ds.isEmpty := by
    cases ds <;> rfl
  have htext : (List.replicate ds.length removed).flatMap Outcome.text = [] := by
    simp [List.flatMap_eq_nil_iff, removed]
  have hattached : (List.replicate ds.length removed).flatMap Outcome.attachments = [] := by
    simp [List.flatMap_eq_nil_iff, removed]
  rw [replaceAll, replaceAll, outcomes_behind hlines]
  simp only [bind_assoc, pure_bind, List.flatMap_append, List.any_append, hany, htext, hattached,
    List.nil_append]

/-- A pass over definitions and a text enters the definitions and is then the pass over the text. -/
theorem exists_of_run_pass_behind {D S u : Text} {ds : List Node} {w w' : Work} {changed : Bool}
    (hreads : Reads [] D ds) (hlines : AllLines ds)
    (h : (pass engine true (D ++ S)).run.run w = (.ok (u, changed), w')) :
    ∃ v own, (defineAll engine true ds).run.run w = (.ok (), v) ∧
      (pass engine true S).run.run v = (.ok (u, own), w') ∧ changed = (!ds.isEmpty || own) := by
  cases hms : parse (D ++ S) with
  | error e =>
      rw [pass, hms] at h
      cases (Prod.mk.inj h).1
  | ok ms =>
      obtain ⟨ns, hns, rfl⟩ := (hreads.before hlines S).parse_behind hlines hms
      rw [pass_of_parse hms] at h
      obtain ⟨_, x, hdefine, hreplace⟩ := exists_of_run_bind h
      obtain ⟨v, hds, hrest⟩ := exists_of_run_defineAll_append hdefine
      rw [replaceAll_behind hlines] at hreplace
      obtain ⟨⟨t, own⟩, y, hown, hpure⟩ := exists_of_run_bind hreplace
      cases hpure
      exact ⟨v, own, hds, by rw [pass_of_parse hns, run_bind_ok _ hrest, hown], rfl⟩

/-- The passes over a text without code that begin after a pass which found nothing. -/
theorem run_passes_unchanged {S : Text} (hcode : (Code.pieces S).all Code.Piece.isProse = true)
    {w : Work} (h : (pass engine false S).run.run w = (.ok (S, false), w)) (n : Nat) :
    (passes engine n false S).run.run w = (.ok S, w) := by
  cases n with
  | zero => rfl
  | succ n =>
      have hmask : (mask S).run.run w = (.ok S, w) := by
        rw [run_mask, (Vault.mask_eq_self_iff w.vault S).2 hcode]
      rw [passes_later, run_bind_ok _ hmask, run_bind_ok _ h]
      rfl

/-- The passes over definitions and a text are those over the text with the definitions entered. Where the
text has nothing to do there is one pass more. -/
theorem exists_of_run_passes_behind {D S x : Text} {ds : List Node} {w w' : Work} {n : Nat}
    (hreads : Reads [] D ds) (hlines : AllLines ds)
    (hcode : (Code.pieces S).all Code.Piece.isProse = true)
    (h : (passes engine (n + 1) true (D ++ S)).run.run w = (.ok x, w')) :
    ∃ v, (defineAll engine true ds).run.run w = (.ok (), v) ∧
      (passes engine (n + 1) true S).run.run v = (.ok x, w') := by
  rw [passes_first] at h
  obtain ⟨⟨u, changed⟩, y, hpass, hlater⟩ := exists_of_run_bind h
  obtain ⟨v, own, hdefine, hown, hchanged⟩ := exists_of_run_pass_behind hreads hlines hpass
  refine ⟨v, hdefine, ?_⟩
  rw [passes_first, run_bind_ok _ hown]
  cases own with
  | true =>
      rw [hchanged, Bool.or_true] at hlater
      exact hlater
  | false =>
      obtain ⟨rfl, rfl, hagain⟩ := run_pass_unchanged hown
      cases changed with
      | false => exact hlater
      | true =>
          have hsame := run_passes_unchanged hcode hagain n
          simp only [if_true] at hlater
          rw [hsame] at hlater
          exact hlater

theorem run_replaceAll_nil (w : Work) :
    (replaceAll engine []).run.run w = (.ok ([], false), w) := by
  have hnone : (outcomes engine []).run.run w = (.ok [], w) := rfl
  rw [replaceAll, run_bind_ok _ hnone, run_bind_ok _ (run_modify ..), run_pure]
  simp

/-- The passes over definitions alone. -/
theorem run_passes_definitions {D : Text} {ds : List Node} {w v : Work} (n : Nat)
    (hparse : parse D = .ok ds) (hlines : AllLines ds)
    (hdefine : (defineAll engine true ds).run.run w = (.ok (), v)) :
    (passes engine (n + 1) true D).run.run w = (.ok [], v) := by
  have hreplace : replaceAll engine (ds ++ []) = _ := replaceAll_behind hlines []
  rw [List.append_nil] at hreplace
  have hpass : (pass engine true D).run.run w = (.ok ([], !ds.isEmpty), v) := by
    rw [pass_of_parse hparse, run_bind_ok _ hdefine, hreplace, run_bind_ok _ (run_replaceAll_nil v),
      run_pure, Bool.or_false]
  have hempty : (pass engine false []).run.run v = (.ok ([], false), v) :=
    run_pass_of_leaves (parse_of_reads .nil) (by simp)
  rw [passes_first, run_bind_ok _ hpass]
  cases hds : ds.isEmpty with
  | true => rfl
  | false => exact run_passes_unchanged (by decide +kernel) hempty n

/-- What is made of a text behind complete lines. -/
theorem prepare_behind {D : Text} (B : Text) (hlines : Comment.Lines D)
    (hcode : Vault.empty.mask D = (D, .empty)) (hself : Comment.strip D = D)
    (hopen : Comment.openTags 0 D = 0) :
    prepare (D ++ B) = (D ++ (prepare B).1, (prepare B).2) := by
  have hmask : Vault.empty.mask (D ++ B) = (D ++ (Vault.empty.mask B).1, (Vault.empty.mask B).2) := by
    rcases hlines with rfl | ⟨s, rfl, -⟩
    · rfl
    · exact Vault.mask_lines .empty B hcode
  rw [prepare, hmask, Comment.strip_lines _ hlines hself hopen, prepare]

end Rendering

namespace Engine

open Rendering

theorem matchesOnly_of_render {engine : Engine} {t x : Text} {c c' : Context}
    (h : engine.render t c = (.ok (.text x), c')) : c.options.matchesOnly = false := by
  by_contra honly
  rw [Bool.not_eq_false] at honly
  rw [render_slots engine t honly] at h
  cases hms : slotMatches (prepare t).1 with
  | ok ms => rw [hms] at h; cases h
  | error e => rw [hms] at h; cases h

/-- Definitions alone render to nothing, and leave themselves in the context. -/
theorem render_definitions {engine : Engine} {D : Text} {ds : List Node} {c : Context} {v : Vault}
    {w : Work} (hparse : parse (prepare D).1 = .ok ds) (hlines : AllLines ds)
    (hdefine : (defineAll engine true ds).run.run ⟨c, v⟩ = (.ok (), w))
    (hc : c.options.matchesOnly = false) :
    engine.render D c = (.ok (.text []), w.context) := by
  obtain ⟨-, -, hany⟩ := run_defineAll_vault hdefine
  rw [render_run engine D hc, maxPasses, run_passes_definitions _ hparse hlines (hany (prepare D).2)]
  simp only [Vault.restore_of_not_mem _ (List.not_mem_nil (a := placeholderOpen))]

/-- Definitions, rendered first on the context that the rest of the text then uses, do there what they would
do in front of it. The text of theirs that counts is the masked one: a placeholder in it stands for nothing of
theirs. It has to be read by itself, without comments, and the passes over the rest have to find the code that
was in it and no more. -/
theorem render_shared (engine : Engine) (D B x : Text) (ds : List Node) (c c' : Context)
    (hparse : parse (Vault.empty.mask D).1 = .ok ds) (hlines : AllLines ds)
    (hfirm : Firm (Cursor.start (Vault.empty.mask D).1))
    (hself : Comment.strip (Vault.empty.mask D).1 = (Vault.empty.mask D).1)
    (hopen : Comment.openTags 0 (Vault.empty.mask D).1 = 0)
    (hcode : Vault.empty.mask (Vault.empty.mask D).1 = ((Vault.empty.mask D).1, .empty))
    (hrest : Vault.empty.mask (prepare B).1 = ((prepare B).1, .empty))
    (h : engine.render ((Vault.empty.mask D).1 ++ B) c = (.ok (.text x), c')) :
    ∃ shared, engine.render D c = (.ok (.text []), shared) ∧
      engine.render B shared = (.ok (.text x), c') := by
  have hc := matchesOnly_of_render h
  have hreads := hfirm.exists_reads_of_parse hparse
  rw [render_run engine _ hc, prepare_behind B (hreads.lines hlines) hcode hself hopen, maxPasses] at h
  cases hpasses : (passes engine 5 true ((Vault.empty.mask D).1 ++ (prepare B).1)).run.run
      ⟨c, (prepare B).2⟩ with
  | mk r w =>
      rw [hpasses] at h
      cases r with
      | error e => cases h
      | ok y =>
          obtain ⟨v, hdefine, hlater⟩ := exists_of_run_passes_behind hreads hlines
            ((Vault.mask_eq_self_iff _ _).1 hrest) hpasses
          have hprepare : (prepare D).1 = (Vault.empty.mask D).1 := hself
          refine ⟨v.context, render_definitions (hprepare ▸ hparse) hlines hdefine hc, ?_⟩
          obtain ⟨table, rfl, -⟩ := run_defineAll_vault hdefine
          have hoptions : ({ c with definitions := table } : Context).options.matchesOnly = false := hc
          rw [render_run engine B hoptions, maxPasses, hlater]
          exact h

def cardRest : Text := bracketed "`[[b]]` " ++ cardUse

theorem render_shared_card :
    parse (Vault.empty.mask cardLine).1 = .ok [.define cardLineDefinition cardLineSource] ∧
    AllLines [.define cardLineDefinition cardLineSource] ∧
    Firm (Cursor.start (Vault.empty.mask cardLine).1) ∧
    Comment.strip (Vault.empty.mask cardLine).1 = (Vault.empty.mask cardLine).1 ∧
    Comment.openTags 0 (Vault.empty.mask cardLine).1 = 0 ∧
    Vault.empty.mask (Vault.empty.mask cardLine).1 = ((Vault.empty.mask cardLine).1, .empty) ∧
    Vault.empty.mask (prepare cardRest).1 = ((prepare cardRest).1, .empty) ∧
    (({} : Engine).render ((Vault.empty.mask cardLine).1 ++ cardRest) {}).1 =
      .ok (.text (bracketed "`[[b]]` <a1> 2")) ∧
    ∃ shared, ({} : Engine).render cardLine {} = (.ok (.text []), shared) ∧
      (({} : Engine).render cardRest shared).1 = .ok (.text (bracketed "`[[b]]` <a1> 2")) := by
  have hparse : parse (Vault.empty.mask cardLine).1 =
      .ok [.define cardLineDefinition cardLineSource] := by decide +kernel
  have hlines : AllLines [.define cardLineDefinition cardLineSource] := by decide +kernel
  have hfirm : Firm (Cursor.start (Vault.empty.mask cardLine).1) := firm_of_isFirm 2 (by decide +kernel)
  have hself : Comment.strip (Vault.empty.mask cardLine).1 = (Vault.empty.mask cardLine).1 := by
    decide +kernel
  have hopen : Comment.openTags 0 (Vault.empty.mask cardLine).1 = 0 := by decide +kernel
  have hcode : Vault.empty.mask (Vault.empty.mask cardLine).1 =
      ((Vault.empty.mask cardLine).1, .empty) := by decide +kernel
  have hrest : Vault.empty.mask (prepare cardRest).1 = ((prepare cardRest).1, .empty) := by
    decide +kernel
  have hrun : (({} : Engine).render ((Vault.empty.mask cardLine).1 ++ cardRest) {}).1 =
      .ok (.text (bracketed "`[[b]]` <a1> 2")) := by decide +kernel
  obtain ⟨shared, hD, hB⟩ := render_shared {} cardLine cardRest _ _ {} _ hparse hlines hfirm hself
    hopen hcode hrest (Prod.ext hrun rfl)
  exact ⟨hparse, hlines, hfirm, hself, hopen, hcode, hrest, hrun, shared, hD, congrArg Prod.fst hB⟩

def codeLine : Text := bracketed "[x]`c`[/x]\n"

def codeUse : Text := bracketed "[[x]]"

def codeLineNode : Node :=
  .define { name := ['x'], content := Vault.placeholder 0 }
    ⟨bracketed "[x]", some (Vault.placeholder 0), bracketed "[/x]\n"⟩

/-- The conditions of `render_shared`, checked one by one: complete lines of definitions, blocks that are read
by themselves, no comments, no open tag, and no further code, neither in the definitions nor in the text. -/
def sharingChecks (D B : Text) : List Bool :=
  let masked := (Vault.empty.mask D).1
  [(parse masked).toOption.any fun ns => ns.all Node.isLine, isFirm 2 (Cursor.start masked),
    Comment.strip masked = masked, Comment.openTags 0 masked = 0,
    Vault.empty.mask masked = (masked, .empty),
    Vault.empty.mask (prepare B).1 = ((prepare B).1, .empty)]

/-- What the text renders to behind the masked definitions, and what after a rendering of them. -/
def bothWays (D B : Text) : Option Output × Option Output :=
  ((({} : Engine).render ((Vault.empty.mask D).1 ++ B) {}).1.toOption,
    (({} : Engine).render B (({} : Engine).render D {}).2).1.toOption)

def brokenBlocks : Text := bracketed "[a][[f(\"[/a]\n[b]]][/b]\n"

def openFence : Text := bracketed "[x]\n``` `a`\n[/x]\n"

def shownCode : Text := bracketed "``/**/`[[u(\"```[[x]]\")]]"

/-- The vault is not shared with the context. Each of the other inputs fails one of the conditions: a block
ends at another closing tag when the text is behind it, the first of three braces counts as a tag that stays
open, a placeholder makes a line open a fence, and a run of backticks is complete without a comment in it. -/
theorem render_codeLine :
    Comment.strip (Vault.empty.mask codeLine).1 = (Vault.empty.mask codeLine).1 ∧
    parse (Vault.empty.mask codeLine).1 = .ok [codeLineNode] ∧ AllLines [codeLineNode] ∧
    Vault.Ordinary (codeLine ++ codeUse) ∧
    codeUse.head? ≠ some '\n' ∧ codeUse.head? ≠ some '\r' ∧
    (({} : Engine).render (codeLine ++ codeUse) {}).1 = .ok (.text "`c`".toList) ∧
    (({} : Engine).render codeLine {}).1 = .ok (.text []) ∧
    (({} : Engine).render codeUse (({} : Engine).render codeLine {}).2).1 =
      .ok (.text (Vault.placeholder 0)) ∧
    sharingChecks brokenBlocks (bracketed "\")]][/a]") = [true, false, true, true, true, true] ∧
    bothWays brokenBlocks (bracketed "\")]][/a]") = (some (.text []), none) ∧
    sharingChecks (bracketed "[y][[[x]][/y]\n") "\"//\"".toList =
      [true, true, true, false, true, true] ∧
    bothWays (bracketed "[y][[[x]][/y]\n") "\"//\"".toList =
      (some (.text "\"//\"".toList), some (.text ['"'])) ∧
    sharingChecks openFence (bracketed "```\n[/x]") = [true, true, true, true, false, true] ∧
    bothWays openFence (bracketed "```\n[/x]") =
      (some (.text []), some (.text (bracketed "```\n[/x]"))) ∧
    sharingChecks (bracketed "[x=\"5\"]\n") shownCode = [true, true, true, true, true, false] ∧
    bothWays (bracketed "[x=\"5\"]\n") shownCode =
      (some (.text (bracketed "```[[u(\"```5\")]]")),
        some (.text (bracketed "```[[u(\"```[[x]]\")]]"))) := by
  decide +kernel

end Engine
end Stencil
