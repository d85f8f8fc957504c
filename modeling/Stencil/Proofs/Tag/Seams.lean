import Stencil.Proofs.Code.Seams
import Stencil.Proofs.Tag.Malformed
import Stencil.Proofs.Tag.Offsets

/-! # Templates in a row

A definition that ends with its own line break is read alike before any text (`Reads.before`), and behind
any text that is a template by itself and does not end with a brace (`reads_before_brace`). The nodes of
the two texts then follow each other (`Reads.append`, `Reads.behind_definitions`). -/
set_option autoImplicit false
namespace Stencil

/-! ## Definitions that end with a line break -/

def Node.isLine : Node → Bool
  | .define _ source => source.text.getLast? = some '\n'
  | _ => false

/-- The nodes are definitions, each with its line break. -/
def AllLines (ns : List Node) : Prop := ∀ n ∈ ns, n.isLine = true

instance (ns : List Node) : Decidable (AllLines ns) :=
  inferInstanceAs (Decidable (∀ n ∈ ns, n.isLine = true))

theorem Node.exists_text_mem_consText (ch : Char) (ns : List Node) :
    ∃ u, .text u ∈ consText ch ns := by
  cases ns with
  | nil => exact ⟨_, List.mem_cons_self ..⟩
  | cons n ns => cases n <;> exact ⟨_, List.mem_cons_self ..⟩

theorem DefinitionText.getLast? {opening closing : Text} {body : Option Text} {d : Definition}
    (h : DefinitionText opening body closing d) :
    (opening ++ (body.getD [] ++ closing)).getLast? = some '}' := by
  obtain ⟨-, y, w, hy, -⟩ := text_of_definition (h.2 0 [])
  obtain ⟨-, z, u, hz, -⟩ := text_of_definition (h.2 0 ['\n'])
  have hnone : lineBreak [] = [] := rfl
  have hfeed : lineBreak ['\n'] = ['\n'] := rfl
  simp only [DefinitionSource.text, hnone, hfeed, List.append_nil, ← List.append_assoc] at hy hz
  rw [← List.append_assoc, hy]
  rw [hy] at hz
  rcases isBreak_lineBreak w with hw | hw | hw
  · rw [hw, List.getLast?_append]
    rfl
  all_goals
    -- with a line break of its own the tag would take a second one
    have htwo := congrArg List.reverse hz
    rw [hw] at htwo
    rcases isBreak_lineBreak u with hu | hu | hu <;> rw [hu] at htwo <;> simp at htwo

theorem lineBreak_of_isBreak {br : Text} (h : IsBreak br) (hne : br ≠ []) (w : Text) :
    lineBreak (br ++ w) = br := by
  rcases h with rfl | rfl | rfl
  · exact absurd rfl hne
  · rfl
  · rfl

theorem break_ne_nil {opening closing br : Text} {body : Option Text} {d : Definition}
    (h : DefinitionText opening body closing d)
    (hline : (DefinitionSource.text ⟨opening, body, closing ++ br⟩).getLast? = some '\n') :
    br ≠ [] := by
  rintro rfl
  rw [DefinitionSource.text, List.append_nil, List.append_assoc, h.getLast?] at hline
  cases hline

/-- A reading of nothing but such definitions has no step for text and none for a slot. -/
theorem Reads.induction_lines {r : Text} {motive : Text → List Node → Prop} (nil : motive [] [])
    (define : ∀ {opening closing br t : Text} {body : Option Text} {d : Definition} {ns : List Node},
      DefinitionText opening body closing d → lineBreak (br ++ (t ++ r)) = br → br ≠ [] →
      Reads r t ns → motive t ns → motive (opening ++ (body.getD [] ++ (closing ++ (br ++ t))))
        (.define d ⟨opening, body, closing ++ br⟩ :: ns))
    {t : Text} {ns : List Node} (h : Reads r t ns) : AllLines ns → motive t ns := by
  induction h with
  | nil => intro _; exact nil
  | @text ch t ns _ _ _ =>
      intro hlines
      obtain ⟨u, hu⟩ := Node.exists_text_mem_consText ch ns
      exact absurd (hlines _ hu) (by simp [Node.isLine])
  | slot _ _ _ =>
      intro hlines
      exact absurd (hlines _ (List.mem_cons_self ..)) (by simp [Node.isLine])
  | define hd hbr hrest ih =>
      intro hlines
      obtain ⟨hfirst, hlines⟩ := List.forall_mem_cons.1 hlines
      exact define hd hbr (break_ne_nil hd (of_decide_eq_true hfirst)) hrest (ih hlines)

/-- Definitions that end with a line break are complete lines, and no backslash stands before the last line
feed. -/
theorem Reads.lines {r t : Text} {ns : List Node} (h : Reads r t ns) :
    AllLines ns → Comment.Lines t := by
  refine h.induction_lines (motive := fun t _ => Comment.Lines t) (.inl rfl) ?_
  intro opening closing br t body d ns hd hbr hne _ ih
  have htag := hd.getLast?
  have hbreak : IsBreak br := hbr ▸ isBreak_lineBreak _
  simp only [← List.append_assoc] at htag ⊢
  rcases ih with rfl | ⟨s, rfl, hs⟩
  · rw [List.append_nil]
    rcases hbreak with hnone | rfl | rfl
    · exact absurd hnone hne
    · exact .inr ⟨_, rfl, by rw [htag]; decide⟩
    · exact .inr ⟨opening ++ body.getD [] ++ closing ++ ['\r'], by simp, by simp⟩
  · refine .inr ⟨opening ++ body.getD [] ++ closing ++ br ++ s, by simp, ?_⟩
    refine getLast?_append_ne hs fun _ => getLast?_append_ne ?_ fun hnil => absurd hnil hne
    rcases hbreak with hnone | rfl | rfl
    · exact absurd hnone hne
    · decide
    · decide

/-- Definitions that end with a line break are read alike whatever comes behind them. -/
theorem Reads.before {r t : Text} {ns : List Node} (h : Reads r t ns) (hlines : AllLines ns)
    (w : Text) : Reads w t ns := by
  refine h.induction_lines (motive := Reads w) .nil (fun hd hbr hne _ ih => ?_) hlines
  have hbreak : IsBreak _ := hbr ▸ isBreak_lineBreak _
  exact .define hd (lineBreak_of_isBreak hbreak hne _) ih

theorem head?_of_reads_define {r t : Text} {d : Definition} {source : DefinitionSource}
    {ns : List Node} (h : Reads r t (.define d source :: ns)) : t.head? = some '{' := by
  generalize hms : Node.define d source :: ns = ms at h
  cases h with
  | nil => cases hms
  | @text ch t ms _ _ =>
      cases ms with
      | nil => cases hms
      | cons m ms => cases m <;> cases hms
  | slot _ _ => cases hms
  | define hd _ _ =>
      obtain ⟨c, u, rfl⟩ := hd.exists_cons
      rfl

theorem Located.behind_definition {c next : Cursor} {d : Definition} {source : DefinitionSource}
    {ms : List Node} (h : Located c ms) (hlead : lead c.rest = .opening)
    (hdef : Node.definition c = .ok (d, source, next)) :
    ∃ ns, ms = .define d source :: ns ∧ Located next ns := by
  cases h with
  | nil hc => rw [hc] at hlead; cases hlead
  | text _ htext _ => rw [htext] at hlead; cases hlead
  | slot hslot _ _ => rw [hslot] at hlead; cases hlead
  | define _ hdef' hns =>
      obtain ⟨rfl, rfl, rfl⟩ := by simpa using hdef.symm.trans hdef'
      exact ⟨_, rfl, hns⟩

/-! ## Two readings -/

theorem Reads.behind_definitions {r s t : Text} {ms ns : List Node} (h : Reads (t ++ r) s ms)
    (ht : Reads r t ns) : AllLines ms → Reads r (s ++ t) (ms ++ ns) := by
  refine h.induction_lines (motive := fun s ms => Reads r (s ++ t) (ms ++ ns)) ht ?_
  intro opening closing br s body d ms hd hbr _ _ ih
  have hnode := Reads.define (t := s ++ t) hd (by simpa using hbr) ih
  simpa using hnode

theorem Node.consText_append {ch : Char} {ms ns : List Node} (hns : ∀ u, ns.head? ≠ some (.text u)) :
    consText ch (ms ++ ns) = consText ch ms ++ ns := by
  cases ms with
  | nil =>
      cases ns with
      | nil => rfl
      | cons n ns =>
          cases n with
          | text u => exact absurd rfl (hns u)
          | slot s z => rfl
          | define d source => rfl
  | cons m ms => cases m <;> rfl

/-- Text at the end of the first reading would go on in text at the start of the second one. -/
theorem Reads.append {r s t : Text} {ms ns : List Node} (h : Reads (t ++ r) s ms) (ht : Reads r t ns)
    (hns : ∀ u, ns.head? ≠ some (.text u)) : Reads r (s ++ t) (ms ++ ns) := by
  induction h with
  | nil => exact ht
  | @text ch s ms hlead _ ih =>
      rw [← Node.consText_append hns]
      exact .text (by simpa using hlead) ih
  | slot hz _ ih =>
      rw [List.append_assoc]
      exact .slot hz ih
  | @define opening closing br s body d ms hd hbr _ ih =>
      have hnode := Reads.define (t := s ++ t) hd (by simpa using hbr) ih
      simpa using hnode

/-- A template behind definitions is a template by itself. -/
theorem Reads.parse_behind {r t : Text} {ns ms : List Node} (h : Reads r t ns) (hlines : AllLines ns)
    (hms : parse (t ++ r) = .ok ms) : ∃ ks, parse r = .ok ks ∧ ms = ns ++ ks := by
  have hgo : ∀ (o : Nat) (ms : List Node), Located ⟨o, t ++ r⟩ ms →
      ∃ ks p, Located ⟨p, r⟩ ks ∧ ms = ns ++ ks := by
    refine h.induction_lines (motive := fun t ns => ∀ (o : Nat) (ms : List Node),
      Located ⟨o, t ++ r⟩ ms → ∃ ks p, Located ⟨p, r⟩ ks ∧ ms = ns ++ ks)
      (fun o ms hms => ⟨ms, o, hms, rfl⟩) ?_ hlines
    intro opening closing br t body d ns hd hbr _ _ ih o ms hms
    have hdef := hd.2 o (br ++ (t ++ r))
    rw [hbr, skipLineBreak_of_lineBreak hbr] at hdef
    have htext : opening ++ (body.getD [] ++ (closing ++ (br ++ t))) ++ r =
        opening ++ (body.getD [] ++ (closing ++ (br ++ (t ++ r)))) := by simp
    rw [htext] at hms
    obtain ⟨ls, rfl, hls⟩ := hms.behind_definition (hd.1 _) hdef
    obtain ⟨ks, p, hks, rfl⟩ := ih _ _ hls
    exact ⟨ks, p, hks, rfl⟩
  obtain ⟨ks, p, hks, rfl⟩ := hgo _ _ (located_of_parse hms)
  exact ⟨ks, hks.parse_rest, rfl⟩

end Stencil
