import Stencil.Proofs.Tag.Located
import Stencil.Proofs.Tag.Recognized

/-! # Reading at another offset

The offset of a cursor goes into errors only. What is read of a text is therefore the same wherever the text
stands (`Located.from?_at`), although a block that is not understood is closed in another way when an error of
another kind comes up: the kinds of the errors are the same as well (`scan_moved`). -/
set_option autoImplicit false
namespace Stencil

/-- The results are equal, apart from the places of errors. -/
inductive Moved {α : Type} : Except Error α → Except Error α → Prop
  | ok (a : α) : Moved (.ok a) (.ok a)
  | syntactic (e f : SyntaxError) : Moved (.error (.syntactic e)) (.error (.syntactic f))
  | mismatched (opening closing : Text) (o p : Nat) :
      Moved (.error (.mismatchedTags opening closing o)) (.error (.mismatchedTags opening closing p))

theorem Moved.settleClosing {p q : Except Error Closing} (h : Moved p q) (name t : Text) :
    Moved (settleClosing name t p) (settleClosing name t q) := by
  cases h with
  | ok k => exact .ok _
  | mismatched y z o p => exact .mismatched y z o p
  | syntactic e f =>
      simp only [Stencil.settleClosing]
      cases findClosing? name t with
      | some k => exact .ok _
      | none => exact .syntactic e f

theorem Reader.Closed.moved {α : Type} {p : Reader α} (hp : Closed p) (c : Cursor) (o : Nat) :
    (∃ e f, p.run c = .error e ∧ p.run ⟨o, c.rest⟩ = .error f) ∨
    ∃ a next next', p.run c = .ok (a, next) ∧ p.run ⟨o, c.rest⟩ = .ok (a, next') ∧
      next'.rest = next.rest := by
  cases hc : p.run c with
  | ok r =>
      obtain ⟨a, next⟩ := r
      obtain ⟨z, hz, -, htakes⟩ := hp.takes hc
      exact .inr ⟨a, next, ⟨o + Text.size z, next.rest⟩, rfl, by rw [hz]; exact htakes next.rest o, rfl⟩
  | error e =>
      cases ho : p.run ⟨o, c.rest⟩ with
      | error f => exact .inl ⟨e, f, rfl, rfl⟩
      | ok r =>
          obtain ⟨a, next⟩ := r
          obtain ⟨z, hz, -, htakes⟩ := hp.takes ho
          have hback := htakes next.rest c.offset
          rw [← hz] at hback
          rw [hc] at hback
          cases hback

theorem Reader.closing_moved (c : Cursor) (o : Nat) :
    (∃ e f, closing.run c = .error e ∧ closing.run ⟨o, c.rest⟩ = .error f) ∨
    ∃ n slash slash' next next', closing.run c = .ok ((n, slash), next) ∧
      closing.run ⟨o, c.rest⟩ = .ok ((n, slash'), next') ∧ next'.rest = next.rest := by
  rcases closed_closingName.moved c o with ⟨e, f, he, hf⟩ | ⟨n, next, next', hn, hn', hrest⟩
  · have hfails : ∀ {c : Cursor} {e : SyntaxError}, closingName.run c = .error e →
        ∃ f, closing.run c = .error f := by
      intro c e he
      cases hc : closing.run c with
      | error f => exact ⟨f, rfl⟩
      | ok r =>
          obtain ⟨⟨n, slash⟩, next⟩ := r
          rw [closingName_of_closing hc] at he
          cases he
    obtain ⟨e', he'⟩ := hfails he
    obtain ⟨f', hf'⟩ := hfails hf
    exact .inl ⟨e', f', he', hf'⟩
  · obtain ⟨slash, hs⟩ := exists_of_closingName hn
    obtain ⟨slash', hs'⟩ := exists_of_closingName hn'
    exact .inr ⟨n, slash, slash', next, next', hs, hs', hrest⟩

/-! ## Definitions -/

theorem skipLineBreak_rest (t : Text) (o p : Nat) :
    (skipLineBreak ⟨o, t⟩).rest = (skipLineBreak ⟨p, t⟩).rest := by
  have ho := (lineBreak_append_skipLineBreak o t).1
  have hp := (lineBreak_append_skipLineBreak p t).1
  exact List.append_cancel_left (ho.symm.trans hp)

namespace Node

def withoutOffset (r : Definition × DefinitionSource × Cursor) :
    Definition × DefinitionSource × Text := (r.1, r.2.1, r.2.2.rest)

theorem definition_moved {c : Cursor} (o : Nat) (hscan : ∀ name next e, Reader.opening.run c = .ok (e, next) →
      ∀ p, Moved (scan (some name) next) (scan (some name) ⟨p, next.rest⟩)) :
    Moved ((definition c).map withoutOffset) ((definition ⟨o, c.rest⟩).map withoutOffset) := by
  rcases Reader.closed_opening.moved c o with ⟨e, f, he, hf⟩ | ⟨e, next, ⟨p, r⟩, hnext, hnext', hr⟩
  · simp only [definition, he, hf]
    exact .syntactic e f
  · obtain rfl : r = next.rest := hr
    simp only [definition, hnext, hnext']
    cases e.form with
    | single v =>
        have hsame := skipLineBreak_rest next.rest next.offset p
        simp only [Except.map, withoutOffset, Cursor.upto]
        rw [← hsame]
        exact .ok _
    | block ps =>
        have hmoved := (hscan e.name next e hnext p).settleClosing e.name next.rest
        simp only
        generalize settleClosing e.name next.rest (scan (some e.name) next) = k,
          settleClosing e.name next.rest (scan (some e.name) ⟨p, next.rest⟩) = k' at hmoved
        cases hmoved with
        | syntactic e f => exact .syntactic e f
        | mismatched y z o p => exact .mismatched y z o p
        | ok k =>
            have hsame := skipLineBreak_rest (next.skipTo k.1.after).rest
              (next.skipTo k.1.after).offset (Cursor.skipTo ⟨p, next.rest⟩ k.1.after).offset
            simp only [Except.map, withoutOffset, Cursor.upto]
            rw [show (Cursor.skipTo ⟨p, next.rest⟩ k.1.after) =
              ⟨(Cursor.skipTo ⟨p, next.rest⟩ k.1.after).offset, (next.skipTo k.1.after).rest⟩ from rfl,
              ← hsame]
            exact .ok _

/-- The definition is read at both places, or at none. -/
theorem cases_of_definition_moved {c : Cursor} {o : Nat}
    (h : Moved ((definition c).map withoutOffset) ((definition ⟨o, c.rest⟩).map withoutOffset)) :
    (∃ e f, definition c = .error e ∧ definition ⟨o, c.rest⟩ = .error f ∧
      ∀ {α : Type}, Moved (.error e : Except Error α) (.error f)) ∨
    ∃ d source next p, definition c = .ok (d, source, next) ∧
      definition ⟨o, c.rest⟩ = .ok (d, source, ⟨p, next.rest⟩) := by
  cases hc : definition c with
  | error e =>
      cases ho : definition ⟨o, c.rest⟩ with
      | error f =>
          rw [hc, ho] at h
          refine .inl ⟨e, f, rfl, rfl, fun {α} => ?_⟩
          cases h with
          | syntactic e f => exact .syntactic e f
          | mismatched y z o p => exact .mismatched y z o p
      | ok r =>
          rw [hc, ho] at h
          cases h
  | ok r =>
      cases ho : definition ⟨o, c.rest⟩ with
      | error f =>
          rw [hc, ho] at h
          cases h
      | ok r' =>
          obtain ⟨d, source, next⟩ := r
          obtain ⟨d', source', ⟨p, t⟩⟩ := r'
          rw [hc, ho] at h
          simp only [Except.map, withoutOffset] at h
          cases h
          exact .inr ⟨d, source, next, p, rfl, rfl⟩

end Node

/-! ## Scans -/

section Scans
variable {opened : Option Text} {c : Cursor}

theorem scan_slot_error {e : SyntaxError} (h : lead c.rest = .slot)
    (he : Reader.slot.run c = .error e) : scan opened c = .error (.syntactic e) := by
  obtain ⟨ch, rest, hc⟩ := ne_nil_of_lead (t := c.rest) (by rw [h]; decide)
  rw [scan.eq_def]
  split
  next hnil => rw [hc] at hnil; cases hnil
  next =>
    simp only [h]
    split
    next f hf =>
      obtain rfl := Except.error.inj (he.symm.trans hf)
      rfl
    next s next hs => rw [he] at hs; cases hs

theorem scan_opening_error {e : Error} (h : lead c.rest = .opening)
    (he : Node.definition c = .error e) : scan opened c = .error e := by
  obtain ⟨ch, rest, hc⟩ := ne_nil_of_lead (t := c.rest) (by rw [h]; decide)
  rw [scan.eq_def]
  split
  next hnil => rw [hc] at hnil; cases hnil
  next =>
    simp only [h]
    simp only [Node.definition] at he
    split
    next f hf =>
      rw [hf] at he
      simpa using he
    next o next ho =>
      rw [ho] at he
      simp only at he
      split
      next v hv =>
        rw [hv] at he
        cases he
      next ps hps =>
        rw [hps] at he
        simp only at he
        split
        next f hf =>
          rw [hf] at he
          simpa using he
        next k taken hk =>
          rw [hk] at he
          cases he

/-- What a scan makes of a closing tag. -/
theorem scan_closing_eq (h : lead c.rest = .closing) : scan opened c =
    match Reader.closing.run c with
    | .error e => .error (.syntactic e)
    | .ok ((name, slash), next) =>
      match opened with
      | none => .error (.syntactic (strayClosing slash))
      | some opened =>
        if opened = name then .ok ⟨c.rest.length, next.rest.length⟩
        else .error (.mismatchedTags opened name c.offset) := by
  obtain ⟨ch, rest, hc⟩ := ne_nil_of_lead (t := c.rest) (by rw [h]; decide)
  rw [scan.eq_def]
  split
  next hnil => rw [hc] at hnil; cases hnil
  next =>
    split
    next htext => rw [h] at htext; cases htext
    next hslot => rw [h] at hslot; cases hslot
    next => rfl
    next hopening => rw [h] at hopening; cases hopening

theorem scan_nil (opened : Option Text) (o : Nat) : scan opened ⟨o, []⟩ =
    match opened with
    | none => .ok ⟨0, 0⟩
    | some name => .error (.syntactic (Cursor.unclosed ⟨o, []⟩ [closingFor name])) :=
  scan.eq_def opened ⟨o, []⟩

theorem scan_nil_moved (opened : Option Text) (o p : Nat) :
    Moved (scan opened ⟨o, []⟩) (scan opened ⟨p, []⟩) := by
  rw [scan_nil, scan_nil]
  cases opened with
  | none => exact .ok _
  | some name => exact .syntactic _ _

/-- By induction on the length of the text. -/
theorem scan_moved : ∀ (n : Nat) (opened : Option Text) (c : Cursor) (o : Nat), c.rest.length ≤ n →
    Moved (scan opened c) (scan opened ⟨o, c.rest⟩) := by
  intro n
  induction n with
  | zero =>
      intro opened c o hn
      obtain ⟨q, t⟩ := c
      obtain rfl : t = [] := List.length_eq_zero_iff.1 (by simpa using hn)
      exact scan_nil_moved opened q o
  | succ n ih =>
      intro opened c o hn
      cases hlead : lead c.rest with
      | text =>
          obtain ⟨q, t⟩ := c
          cases t with
          | nil => exact scan_nil_moved opened q o
          | cons ch rest =>
              rw [scan_text (c := ⟨q, ch :: rest⟩) rfl hlead, scan_text (c := ⟨o, ch :: rest⟩) rfl hlead]
              refine ih opened (Cursor.advance ⟨q, ch :: rest⟩ 1) _ ?_
              simp only [List.length_cons] at hn
              simp only [Cursor.advance, List.drop_succ_cons, List.drop_zero]
              omega
      | slot =>
          rcases Reader.closed_slot.moved c o with ⟨e, f, he, hf⟩ | ⟨s, next, ⟨p, r⟩, hs, hs', hr⟩
          · rw [scan_slot_error hlead he, scan_slot_error (c := ⟨o, c.rest⟩) hlead hf]
            exact .syntactic e f
          · obtain rfl : r = next.rest := hr
            rw [scan_slot hlead hs, scan_slot (c := ⟨o, c.rest⟩) hlead hs']
            have hlt := Reader.length_slot hs
            exact ih opened next p (by omega)
      | closing =>
          rw [scan_closing_eq hlead, scan_closing_eq (c := ⟨o, c.rest⟩) hlead]
          rcases Reader.closing_moved c o with ⟨e, f, he, hf⟩ | ⟨name, y, z, next, ⟨p, r⟩, hs, hs', hr⟩
          · rw [he, hf]
            exact .syntactic e f
          · obtain rfl : r = next.rest := hr
            rw [hs, hs']
            cases opened with
            | none => exact .syntactic _ _
            | some opened =>
                by_cases hname : opened = name
                · simp only [if_pos hname]
                  exact .ok _
                · simp only [if_neg hname]
                  exact .mismatched _ _ _ _
      | opening =>
          rcases Node.cases_of_definition_moved (Node.definition_moved (c := c) o
            fun name next e ho p => ih (some name) next p (by
              have := Reader.length_opening ho
              omega)) with ⟨e, f, he, hf, hmoved⟩ | ⟨d, source, next, p, hd, hd'⟩
          · rw [scan_opening_error hlead he, scan_opening_error (c := ⟨o, c.rest⟩) hlead hf]
            exact hmoved
          · rw [scan_opening hlead hd, scan_opening (c := ⟨o, c.rest⟩) hlead hd']
            have hlt := Node.length_definition hd
            exact ih opened next p (by omega)

end Scans

/-! ## Nodes -/

theorem Located.from?_at {c : Cursor} {ns : List Node} (h : Located c ns) :
    ∀ o, Node.from? ⟨o, c.rest⟩ = .ok ns := by
  induction h with
  | nil hc => intro o; rw [hc, Node.from?_nil]
  | @text c ch rest ns hc hlead _ ih =>
      intro o
      exact Node.from?_text (c := ⟨o, c.rest⟩) hc hlead (ih _)
  | @slot c next s ns hlead hslot _ ih =>
      intro o
      rcases Reader.closed_slot.moved c o with ⟨e, -, he, -⟩ | ⟨s', next', ⟨p, r⟩, hs, hs', hr⟩
      · rw [hslot] at he
        cases he
      · obtain ⟨rfl, rfl⟩ := Prod.mk.inj (Except.ok.inj (hslot.symm.trans hs))
        obtain rfl : r = next.rest := hr
        have hnode := Node.from?_slot (c := ⟨o, c.rest⟩) hlead hs' (ih p)
        exact hnode
  | @define c next d source ns hlead hdef _ ih =>
      intro o
      have hmoved := Node.definition_moved (c := c) o fun name next e _ p =>
        scan_moved next.rest.length (some name) next p (Nat.le_refl _)
      rcases Node.cases_of_definition_moved hmoved with ⟨e, -, he, -⟩ | ⟨d', source', next', p, hd, hd'⟩
      · rw [hdef] at he
        cases he
      · obtain ⟨rfl, rfl, rfl⟩ : d = d' ∧ source = source' ∧ next = next' := by
          simpa using hdef.symm.trans hd
        exact Node.from?_opening (c := ⟨o, c.rest⟩) hlead hd' (ih p)

/-- What is read at a cursor is what the text behind it is read as. -/
theorem Located.parse_rest {c : Cursor} {ns : List Node} (h : Located c ns) :
    parse c.rest = .ok ns := by
  rw [parse, Cursor.start, h.from?_at 0]
  rfl

end Stencil
