import Stencil.Proofs.Rendering.Expansion
import Stencil.Proofs.Tag.Seams
import Stencil.Proofs.Text.Order

/-! # Where a definition stands

All definitions of a pass are entered before a slot is replaced. A definition can therefore change places
with another one (`unlessFailed_swap`), so also with all that stand behind it (`unlessFailed_defineAll`),
and what it leaves behind, which is nothing, can stand anywhere (`replaceAll_move`). A template with a
definition in front of it renders like the same template with the definition behind it
(`Engine.render_placement`). -/
set_option autoImplicit false
namespace Stencil

/-- The runs are the same, or both failed. -/
inductive UnlessFailed {α σ : Type} : Except Error α × σ → Except Error α × σ → Prop
  | failed (e f : Error) (s t : σ) : UnlessFailed (.error e, s) (.error f, t)
  | same (r : Except Error α × σ) : UnlessFailed r r

theorem UnlessFailed.trans {α σ : Type} {p q r : Except Error α × σ} (h : UnlessFailed p q)
    (h' : UnlessFailed q r) : UnlessFailed p r := by
  cases h with
  | same => exact h'
  | failed e f s t =>
      generalize hq : ((.error f, t) : Except Error α × σ) = q at h'
      cases h' with
      | same => rw [← hq]; exact .failed e f s t
      | failed f' g t' u => exact .failed e g s u

/-- What is seen of the state changes nothing. -/
theorem UnlessFailed.map {α σ τ : Type} {p q : Except Error α × σ} (h : UnlessFailed p q)
    (g : σ → τ) : UnlessFailed (p.1, g p.2) (q.1, g q.2) := by
  cases h with
  | same => exact .same _
  | failed e f s t => exact .failed e f (g s) (g t)

namespace Rendering

variable {engine : Engine} {d e : Definition} {w : Work}

theorem unlessFailed_bind {α β : Type} {p q : Rendering α} {w w' : Work} (f : α → Rendering β)
    (h : UnlessFailed (p.run.run w) (q.run.run w')) :
    UnlessFailed ((p >>= f).run.run w) ((q >>= f).run.run w') := by
  rw [run_bind, run_bind]
  generalize p.run.run w = r, q.run.run w' = r' at h
  cases h with
  | same => exact .same _
  | failed e f s t => exact .failed e f s t

/-! ## Entering definitions in another order -/

def Enters (engine : Engine) (w : Work) (d : Definition) : Prop :=
  w.context.definitions.get? d.name = none ∧ engine.functions.contains d.name = false

theorem run_defineAll_of_enters (h : Enters engine w d) (source : DefinitionSource)
    (rest : List Node) : (defineAll engine true (.define d source :: rest)).run.run w =
      (defineAll engine true rest).run.run (enter d w) := by
  rw [run_defineAll_define, if_neg (by simp), if_neg (by simp [NameMap.contains, h.1]),
    if_neg (by simp [h.2])]

theorem run_defineAll_of_not_enters (h : ¬ Enters engine w d) (source : DefinitionSource)
    (rest : List Node) :
    ∃ e, (defineAll engine true (.define d source :: rest)).run.run w = (.error e, w) := by
  rw [run_defineAll_define, if_neg (by simp)]
  by_cases hname : w.context.definitions.contains d.name = true
  · exact ⟨_, if_pos hname⟩
  · by_cases hfunction : engine.functions.contains d.name = true
    · exact ⟨_, by rw [if_neg hname, if_pos hfunction]⟩
    · exact absurd ⟨by simpa [NameMap.contains] using hname, by simpa using hfunction⟩ h

theorem enters_enter : Enters engine (enter d w) e ↔ Enters engine w e ∧ e.name ≠ d.name := by
  unfold Enters enter
  by_cases hname : e.name = d.name
  · simp [NameMap.get?_insert, hname]
  · simp [NameMap.get?_insert, hname]

theorem enter_comm (hd : Enters engine w d) (he : Enters engine w e) (hne : e.name ≠ d.name) :
    enter e (enter d w) = enter d (enter e w) := by
  unfold enter
  rw [NameMap.insert_comm (Ne.symm hne) hd.1 he.1]

theorem unlessFailed_swap (d e : Definition) (y z : DefinitionSource) (rest : List Node) (w : Work) :
    UnlessFailed ((defineAll engine true (.define d y :: .define e z :: rest)).run.run w)
      ((defineAll engine true (.define e z :: .define d y :: rest)).run.run w) := by
  -- a run that cannot enter one of the two fails, if not before
  have hfails : ∀ {d e : Definition} {y z : DefinitionSource}, ¬ (Enters engine w d ∧
      Enters engine (enter d w) e) → ∃ f u,
        (defineAll engine true (.define d y :: .define e z :: rest)).run.run w = (.error f, u) := by
    intro d e y z hnot
    by_cases hd : Enters engine w d
    · obtain ⟨f, hf⟩ := run_defineAll_of_not_enters (fun he => hnot ⟨hd, he⟩) z rest
      exact ⟨f, _, (run_defineAll_of_enters hd y _).trans hf⟩
    · obtain ⟨f, hf⟩ := run_defineAll_of_not_enters hd y (.define e z :: rest)
      exact ⟨f, w, hf⟩
  have hboth : (Enters engine w d ∧ Enters engine (enter d w) e) ↔
      (Enters engine w e ∧ Enters engine (enter e w) d) := by
    rw [enters_enter, enters_enter, and_left_comm, ne_comm]
  by_cases hleft : Enters engine w d ∧ Enters engine (enter d w) e
  · have hright := hboth.1 hleft
    obtain ⟨he, hne⟩ := enters_enter.1 hleft.2
    rw [run_defineAll_of_enters hleft.1, run_defineAll_of_enters hleft.2,
      run_defineAll_of_enters hright.1, run_defineAll_of_enters hright.2,
      enter_comm hleft.1 he hne]
    exact .same _
  · obtain ⟨f, s, hf⟩ := hfails hleft (y := y) (z := z)
    obtain ⟨g, t, hg⟩ := hfails (mt hboth.2 hleft) (y := z) (z := y)
    rw [hf, hg]
    exact .failed f g s t

/-- By induction on the nodes, each of which the definition passes. -/
theorem unlessFailed_defineAll (d : Definition) (y : DefinitionSource) : ∀ (ns : List Node) (w : Work),
    UnlessFailed ((defineAll engine true (.define d y :: ns)).run.run w)
      ((defineAll engine true (ns ++ [.define d y])).run.run w) := by
  intro ns
  induction ns with
  | nil => intro w; exact .same _
  | cons n ns ih =>
      intro w
      cases n with
      | text t =>
          have hpass := ih w
          rw [run_defineAll_define] at hpass ⊢
          exact hpass
      | slot s t =>
          have hpass := ih w
          rw [run_defineAll_define] at hpass ⊢
          exact hpass
      | define e z =>
          refine (unlessFailed_swap d e y z ns w).trans ?_
          rw [List.cons_append]
          by_cases he : Enters engine w e
          · rw [run_defineAll_of_enters he, run_defineAll_of_enters he]
            exact ih _
          · obtain ⟨f, hf⟩ := run_defineAll_of_not_enters he z (.define d y :: ns)
            obtain ⟨g, hg⟩ := run_defineAll_of_not_enters he z (ns ++ [.define d y])
            rw [hf, hg]
            exact .failed f g w w

/-! ## What is left of a definition -/

def removed : Outcome := { text := [], changed := true }

theorem outcomes_define (d : Definition) (y : DefinitionSource) (ns : List Node) :
    outcomes engine (.define d y :: ns) = outcomes engine ns >>= fun done =>
      pure (removed :: done) := rfl

theorem outcomes_append_define (d : Definition) (y : DefinitionSource) (ns : List Node) :
    outcomes engine (ns ++ [.define d y]) = outcomes engine ns >>= fun done =>
      pure (done ++ [removed]) := by
  induction ns with
  | nil => rfl
  | cons n ns ih =>
      rw [List.cons_append, outcomes, outcomes, ih]
      simp only [bind_assoc, pure_bind, List.cons_append]

theorem replaceAll_move (d : Definition) (y : DefinitionSource) (ns : List Node) :
    replaceAll engine (.define d y :: ns) = replaceAll engine (ns ++ [.define d y]) := by
  rw [replaceAll, replaceAll, outcomes_define, outcomes_append_define]
  simp [removed]

theorem unlessFailed_pass {D R : Text} {y : DefinitionSource} {ns : List Node}
    (hbefore : parse (D ++ R) = .ok (.define d y :: ns))
    (hbehind : parse (R ++ D) = .ok (ns ++ [.define d y])) (w : Work) :
    UnlessFailed ((pass engine true (D ++ R)).run.run w) ((pass engine true (R ++ D)).run.run w) := by
  rw [pass_of_parse hbefore, pass_of_parse hbehind, replaceAll_move]
  exact unlessFailed_bind _ (unlessFailed_defineAll d y ns w)

end Rendering

namespace Engine

open Rendering

/-- The definition in front and behind: where it is, the templates are rendered alike, or neither is. The
blocks of the two parts have to be read by themselves, whatever stands behind them. -/
theorem render_placement (engine : Engine) (D R : Text) (c : Context) (d : Definition)
    (source : DefinitionSource) (ns : List Node) (hD : parse D = .ok [.define d source])
    (hline : D.getLast? = some '\n') (hR : parse R = .ok ns) (hbrace : R.getLast? ≠ some '{')
    (hcode : '`' ∉ D ++ R) (hfreeD : Comment.Free D) (hfreeR : Comment.Free R)
    (hfirmD : Firm (Cursor.start D)) (hfirmR : Firm (Cursor.start R))
    (hoptions : c.options.matchesOnly = false) :
    UnlessFailed (engine.render (D ++ R) c) (engine.render (R ++ D) c) := by
  have hreadsD := hfirmD.exists_reads_of_parse hD
  have hreadsR := hfirmR.exists_reads_of_parse hR
  have hsource : source.text = D := by
    simpa [Node.source, Cursor.start] using (located_of_parse hD).flatMap_source
  have hlines : AllLines [.define d source] := by simp [AllLines, Node.isLine, hsource, hline]
  have hhead : D.head? = some '{' := head?_of_reads_define hreadsD
  have hbefore : parse (D ++ R) = .ok (.define d source :: ns) :=
    parse_of_reads ((hreadsD.before hlines _).behind_definitions hreadsR hlines)
  have hbehind : parse (R ++ D) = .ok (ns ++ [.define d source]) :=
    parse_of_reads ((reads_before_brace hreadsR (by simpa using hhead) hbrace).append hreadsD (by simp))
  have hprepare : ∀ {t : Text}, '`' ∉ t → Comment.Free t → prepare t = (t, .empty) := by
    intro t hcode hfree
    rw [prepare, Vault.mask_of_not_mem _ hcode, Comment.strip_of_free hfree]
  have hfront := hprepare hcode (hfreeD.append hfreeR (.inl (by rw [hline]; decide)))
  have hrear := hprepare (t := R ++ D) (by simpa [and_comm] using hcode)
    (hfreeR.append hfreeD (.inr hhead))
  have hruns : UnlessFailed ((whole engine (D ++ R)).run.run { context := c, vault := .empty })
      ((whole engine (R ++ D)).run.run { context := c, vault := .empty }) := by
    rw [run_whole engine _ hoptions, run_whole engine _ hoptions, hfront, hrear, maxPasses,
      passes_first, passes_first]
    exact unlessFailed_bind _ (unlessFailed_bind _ (unlessFailed_pass hbefore hbehind _))
  exact hruns.map Work.context

def cardLine : Text := bracketed "[card(x)][b = \"1\"]<[[x]][[b]]>[/card]\n"

def cardUse : Text := bracketed "[[card(\"a\")]] [v(y)][[y]][/v]\n[[v(2)]]"

def cardLineDefinition : Definition :=
  { name := "card".toList, required := [['x']], content := bracketed "[b = \"1\"]<[[x]][[b]]>" }

def cardLineSource : DefinitionSource :=
  ⟨bracketed "[card(x)]", some cardLineDefinition.content, bracketed "[/card]\n"⟩

theorem render_placement_card : ∃ ns,
    parse cardLine = .ok [.define cardLineDefinition cardLineSource] ∧
    cardLine.getLast? = some '\n' ∧ parse cardUse = .ok ns ∧ cardUse.getLast? ≠ some '{' ∧
    '`' ∉ cardLine ++ cardUse ∧ Comment.Free cardLine ∧ Comment.Free cardUse ∧
    Firm (Cursor.start cardLine) ∧ Firm (Cursor.start cardUse) ∧
    UnlessFailed (({} : Engine).render (cardLine ++ cardUse) {})
      (({} : Engine).render (cardUse ++ cardLine) {}) := by
  have hline : parse cardLine = .ok [.define cardLineDefinition cardLineSource] := by
    decide +kernel
  obtain ⟨ns, huse⟩ : ∃ ns, parse cardUse = .ok ns :=
    (isTemplate_iff cardUse).1 (by decide +kernel)
  have hlast : cardLine.getLast? = some '\n' := by decide +kernel
  have hbrace : cardUse.getLast? ≠ some '{' := by decide +kernel
  have hcode : '`' ∉ cardLine ++ cardUse := by decide +kernel
  have hfreeLine : Comment.Free cardLine := by decide +kernel
  have hfreeUse : Comment.Free cardUse := by decide +kernel
  have hfirmLine : Firm (Cursor.start cardLine) := firm_of_isFirm 2 (by decide +kernel)
  have hfirmUse : Firm (Cursor.start cardUse) := firm_of_isFirm 2 (by decide +kernel)
  exact ⟨ns, hline, hlast, huse, hbrace, hcode, hfreeLine, hfreeUse, hfirmLine, hfirmUse,
    render_placement {} cardLine cardUse {} _ _ ns hline hlast huse hbrace hcode hfreeLine hfreeUse
      hfirmLine hfirmUse rfl⟩

/-- The content of `a` is not understood, and ends at the first closing tag; with the value of `x` behind it
it is understood, up to the closing tag in there. -/
def openCall : Text := bracketed "[a][[f(\"[/a]"

def closingValue : Text := bracketed "[x=\")]][/a]\"]\n"

theorem render_openCall :
    parse closingValue = .ok [.define
      { name := ['x'], content := bracketed ")]][/a]", raw := true }
      ⟨bracketed "[x=\")]][/a]\"]", none, ['\n']⟩] ∧
    closingValue.getLast? = some '\n' ∧
    parse openCall = .ok [.define { name := ['a'], content := bracketed "[[f(\"", raw := true }
      ⟨bracketed "[a]", some (bracketed "[[f(\""), bracketed "[/a]"⟩] ∧
    openCall.getLast? ≠ some '{' ∧
    '`' ∉ closingValue ++ openCall ∧ Vault.Ordinary (closingValue ++ openCall) ∧
    Comment.Free closingValue ∧ Comment.Free openCall ∧
    (({} : Engine).render (closingValue ++ openCall) {}).1 = .ok (.text []) ∧
    (({} : Engine).render (openCall ++ closingValue) {}).1 = .ok (.text (bracketed "\"]\n")) := by
  decide +kernel

end Engine
end Stencil
