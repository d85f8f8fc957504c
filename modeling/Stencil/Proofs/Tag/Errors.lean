import Mathlib.Data.List.DropRight
import Stencil.Proofs.Arithmetic.Errors
import Stencil.Proofs.Tag.Malformed
import Stencil.Proofs.Tag.Offsets
import Stencil.Proofs.Tag.Pointing
import Stencil.Proofs.Text.Edits
import Stencil.Proofs.Text.Lines

/-! # Where templates are rejected

A scan is rejected where one of its readers fails or a closing tag is stray (`Explains.scan_error`), and an
expression that goes on at the end of its slot is rejected there (`explains_rejects`). So a syntax error has
the line and the column of a place in the template, and it shows the end of input at the end of the template
or of such a slot (`syntax_error_position`). -/
set_option autoImplicit false
namespace Stencil

open Reader (Spaces slotEnd)

namespace Reader

variable {c c' : Cursor}

/-! ## Marks -/

theorem head?_ne_of_eat {ch : Char} (h : (eat ch).run c = .ok (false, c')) :
    c' = c ∧ c.rest.head? ≠ some ch := by
  simp only [eat, StateT.run] at h
  split at h
  next => cases (Prod.mk.inj (Except.ok.inj h)).1
  next hne => exact ⟨(Prod.mk.inj (Except.ok.inj h)).2.symm, hne⟩

/-- Skipping characters of a kind for the second time takes nothing. So a mark that was not there before them
is not behind them. -/
theorem head?_ne_of_unmarked {p : Char → Bool} {ch : Char} {a b c d : Cursor} {u v : Unit}
    (h₁ : (takeWhile p >>= fun _ => pure ()).run a = .ok (u, b)) (h₂ : (eat ch).run b = .ok (false, c))
    (h₃ : (takeWhile p >>= fun _ => pure ()).run c = .ok (v, d)) : d.rest.head? ≠ some ch := by
  obtain ⟨rfl, hne⟩ := head?_ne_of_eat h₂
  obtain ⟨-, rfl⟩ := Prod.mk.inj (Except.ok.inj h₁)
  obtain ⟨-, rfl⟩ := Prod.mk.inj (Except.ok.inj h₃)
  have hrest := rest_advance_takeWhile p a
  have hagain := rest_advance_takeWhile p (a.advance (a.rest.takeWhile p).length)
  have hsame := hagain.trans (by rw [hrest, List.dropWhile_idempotent, ← hrest])
  exact fun h => hne (by rw [← hsame]; exact h)

end Reader

/-! ## Expressions that break off -/

/-- The text ends with the opening of a slot: two braces, perhaps an at sign, and spaces. -/
def OpensSlot (t : Text) : Prop :=
  ∃ x gap mark gap', t = x ++ ('{' :: '{' :: (gap ++ (mark ++ gap'))) ∧ Spaces gap ∧
    (mark = [] ∨ mark = ['@']) ∧ Spaces gap'

/-- The error is that of the expression of a slot which goes on at the end of the slot. -/
def Cursor.Breaks (c : Cursor) (e : SyntaxError) : Prop :=
  ∃ front inside back f, c.rest = front ++ (inside ++ (slotEnd ++ back)) ∧ OpensSlot front ∧
    Text.before? slotEnd (inside ++ (slotEnd ++ back)) = some inside ∧
    Arithmetic.parse inside = .error f ∧ f.offset = Text.size inside ∧
    e = f.rebase (c.offset + Text.size front)

/-- The places of syntax errors in a template. -/
def Cursor.Rejects (c : Cursor) (e : SyntaxError) : Prop := c.Points e ∨ c.Breaks e

theorem OpensSlot.append {t : Text} (h : OpensSlot t) (s : Text) : OpensSlot (s ++ t) := by
  obtain ⟨x, gap, mark, gap', rfl, hgap, hmark, hgap'⟩ := h
  exact ⟨s ++ x, gap, mark, gap', by rw [List.append_assoc], hgap, hmark, hgap'⟩

theorem Cursor.Reaches.breaks {c later : Cursor} {e : SyntaxError} (h : c.Reaches later)
    (he : later.Breaks e) : c.Breaks e := by
  obtain ⟨passed, hpassed, hoffset⟩ := h
  obtain ⟨front, inside, back, f, hrest, hopens, hinside, hf, hplace, rfl⟩ := he
  refine ⟨passed ++ front, inside, back, f, ?_, hopens.append passed, hinside, hf, hplace, ?_⟩
  · rw [hpassed, hrest, List.append_assoc]
  · rw [hoffset, Text.size_append, Nat.add_assoc]

theorem Cursor.Reaches.rejects {c later : Cursor} {e : SyntaxError} (h : c.Reaches later)
    (he : later.Rejects e) : c.Rejects e := he.imp h.points h.breaks

/-- An expression that is broken off points to the end of its slot, any other error in it to what is left. -/
theorem cases_of_expression_error {raw : Bool} {c : Cursor} {e : SyntaxError}
    (h : (Reader.expression raw).run c = .error e) : c.Points e ∨
      ∃ inside back f, c.rest = inside ++ (slotEnd ++ back) ∧
        Text.before? slotEnd (inside ++ (slotEnd ++ back)) = some inside ∧
        Arithmetic.parse inside = .error f ∧ f.offset = Text.size inside ∧ e = f.rebase c.offset := by
  simp only [Reader.expression, StateT.run] at h
  split at h
  next =>
    obtain rfl := Except.error.inj h
    exact .inl (c.points_unclosed _)
  next inside hinside =>
    obtain ⟨back, hback, hall⟩ := Reader.exists_of_before? (by simp [slotEnd]) hinside
    split at h
    next f hf =>
      obtain rfl := Except.error.inj h
      obtain ⟨before, after, hsplit, hplace, hfound⟩ := Arithmetic.place_of_parse hf
      by_cases hafter : after = []
      · subst hafter
        rw [List.append_nil] at hsplit
        exact .inr ⟨inside, back, f, hback, hall back, hf, by rw [hplace, hsplit], rfl⟩
      · refine .inl ⟨before, after ++ (slotEnd ++ back), ?_, ?_, ?_⟩
        · rw [hback, hsplit, List.append_assoc]
        · rw [SyntaxError.rebase, hplace, Nat.add_comm]
        · exact iff_of_false (fun hnone => hafter (hfound.1 hnone)) (by simp [hafter])
    next => cases h

/-- A slot fails at what it holds, behind its braces, its mark and the spaces around that. -/
theorem exists_inside_of_slot_error {c : Cursor} {e : SyntaxError} (hlead : lead c.rest = .slot)
    (h : Reader.slot.run c = .error e) : ∃ front raw inside, c.Reaches inside ∧
      c.rest = front ++ inside.rest ∧ OpensSlot front ∧ (raw = false → inside.rest.head? ≠ some '@') ∧
      (Reader.slotInside raw).run inside = .error e := by
  obtain ⟨u, hu, -⟩ := exists_of_lead_slot hlead
  rcases Reader.cases_of_bind_error h with he | ⟨_, c₁, h₁, h⟩
  · cases he
  obtain ⟨-, rfl⟩ := Prod.mk.inj (Except.ok.inj h₁)
  rcases Reader.cases_of_bind_error h with he | ⟨_, c₂, h₂, h⟩
  · cases he
  rcases Reader.cases_of_bind_error h with he | ⟨mark, c₃, h₃, h⟩
  · exact absurd he (Reader.eat_ne_error '@' c₂ e)
  rcases Reader.cases_of_bind_error h with he | ⟨_, c₄, h₄, h⟩
  · cases he
  obtain ⟨gap, hgap, hspaces⟩ := Reader.rest_of_skipSpace h₂
  obtain ⟨gap', hgap', hspaces'⟩ := Reader.rest_of_skipSpace h₄
  refine ⟨'{' :: '{' :: (gap ++ ((if mark then ['@'] else []) ++ gap')), mark, c₄, ?_, ?_, ?_, ?_, h⟩
  · exact (((c.reaches_advance 2).trans (Reader.advances_skipSpace.reaches h₂)).trans
      ((Reader.advances_eat '@').reaches h₃)).trans (Reader.advances_skipSpace.reaches h₄)
  · have hbehind : (c.advance 2).rest = u := by simp [Cursor.advance, hu]
    rw [hu, ← hbehind, hgap, Reader.rest_of_eat h₃, hgap']
    simp
  · exact ⟨[], gap, _, gap', rfl, hspaces, by cases mark <;> simp, hspaces'⟩
  · rintro rfl
    exact Reader.head?_ne_of_unmarked h₂ h₃ h₄

theorem rejects_of_slot_error {c : Cursor} {e : SyntaxError} (hlead : lead c.rest = .slot)
    (h : Reader.slot.run c = .error e) : c.Rejects e := by
  obtain ⟨front, raw, c', hreach, hfront, hopens, -, hinside⟩ := exists_inside_of_slot_error hlead h
  have hoffset := congrArg Cursor.offset (hreach.eq_of_append hfront rfl)
  rw [Reader.run_slotInside] at hinside
  split at hinside
  next =>
    rcases cases_of_expression_error hinside with he | ⟨inside, back, f, hrest, hbefore, hf, hplace, rfl⟩
    · exact .inl (hreach.points he)
    · exact .inr ⟨_, inside, back, f, by rw [hfront, hrest], hopens, hbefore, hf, hplace, by rw [hoffset]⟩
  next => exact .inl (hreach.points ((Reader.pointing_reference raw).points hinside))

/-! ## Errors of templates -/

theorem settleClosing_error {name content : Text} {scanned : Except Error Closing} {e : Error}
    (h : settleClosing name content scanned = .error e) : scanned = .error e := by
  unfold settleClosing at h
  split at h
  next => cases h
  next =>
    split at h
    next => cases h
    next => rw [Except.error.inj h]
  next => rw [Except.error.inj h]

/-- A closing tag has its slash behind a brace and blanks. -/
theorem points_strayClosing {c next : Cursor} {name : Text} {slash : Nat} (hlead : lead c.rest = .closing)
    (h : Reader.closing.run c = .ok ((name, slash), next)) : c.Points (strayClosing slash) := by
  obtain ⟨u, hu⟩ := exists_cons_of_lead (t := c.rest) (by rw [hlead]; decide)
  obtain ⟨_, c₁, h₁, h⟩ := Reader.exists_of_run_bind h
  obtain ⟨-, rfl⟩ := Prod.mk.inj (Except.ok.inj h₁)
  obtain ⟨_, c₂, h₂, h⟩ := Reader.exists_of_run_bind h
  obtain ⟨_, c₃, h₃, h⟩ := Reader.exists_of_run_bind h
  obtain ⟨rfl, rfl⟩ := Prod.mk.inj (Except.ok.inj h₃)
  have hslash : slash = c₂.offset := by
    obtain ⟨_, c₄, -, h⟩ := Reader.exists_of_run_bind h
    obtain ⟨_, c₅, -, h⟩ := Reader.exists_of_run_bind h
    obtain ⟨_, c₆, -, h⟩ := Reader.exists_of_run_bind h
    obtain ⟨_, c₇, -, h⟩ := Reader.exists_of_run_bind h
    obtain ⟨_, c₈, -, h⟩ := Reader.exists_of_run_bind h
    exact (Prod.mk.inj (Prod.mk.inj (Except.ok.inj h)).1).2.symm
  have hblanks : c₂.rest = u.dropWhile isLineBlank := by
    obtain ⟨-, rfl⟩ := Prod.mk.inj (Except.ok.inj h₂)
    refine (Reader.rest_advance_takeWhile isLineBlank (c.advance 1)).trans ?_
    simp [Cursor.advance, hu]
  have hne : c₂.rest ≠ [] := by
    rw [hblanks]
    intro hnil
    rw [hu, lead_brace, hnil] at hlead
    by_cases htwo : u.take 2 = ['{', '{']
    · rw [if_pos htwo] at hlead
      cases hlead
    · rw [if_neg htwo] at hlead
      by_cases hone : u.head? = some '{'
      · rw [if_pos hone] at hlead
        cases hlead
      · rw [if_neg hone] at hlead
        cases hlead
  obtain ⟨passed, hpassed, hoffset⟩ := (c.reaches_advance 1).trans (Reader.advances_skipBlanks.reaches h₂)
  exact ⟨passed, c₂.rest, hpassed, by rw [← hoffset, ← hslash]; rfl, iff_of_false (Option.some_ne_none _) hne⟩

/-- What holds of all syntax errors of a scan: it holds of those of the readers and of the tags that are missing
or stray, and it holds of what is further on. -/
structure Explains (P : Cursor → SyntaxError → Prop) : Prop where
  reaches : ∀ {c later : Cursor} {e : SyntaxError}, c.Reaches later → P later e → P c e
  unclosed : ∀ (c : Cursor) (name : Text), P c (c.unclosed [closingFor name])
  slot : ∀ {c : Cursor} {e : SyntaxError}, lead c.rest = .slot → Reader.slot.run c = .error e → P c e
  closing : ∀ {c : Cursor} {e : SyntaxError}, lead c.rest = .closing →
    Reader.closing.run c = .error e → P c e
  stray : ∀ {c next : Cursor} {name : Text} {slash : Nat}, lead c.rest = .closing →
    Reader.closing.run c = .ok ((name, slash), next) → P c (strayClosing slash)
  opening : ∀ {c : Cursor} {e : SyntaxError}, lead c.rest = .opening →
    Reader.opening.run c = .error e → P c e

theorem Explains.scan_error {P : Cursor → SyntaxError → Prop} (hP : Explains P) {opened : Option Text}
    {c : Cursor} {e : SyntaxError} (h : scan opened c = .error (.syntactic e)) : P c e := by
  fun_induction scan opened c with
  | case1 => cases h
  | case2 c hc name =>
      obtain rfl := Error.syntactic.inj (Except.error.inj h)
      exact hP.unclosed c name
  | case3 opened c ch rest hc hlead ih => exact hP.reaches (c.reaches_advance 1) (ih h)
  | case4 opened c ch rest hc hlead f hf =>
      obtain rfl := Error.syntactic.inj (Except.error.inj h)
      exact hP.slot hlead hf
  | case5 opened c ch rest hc hlead s next hs ih => exact hP.reaches (Reader.advances_slot.reaches hs) (ih h)
  | case6 opened c ch rest hc hlead f hf =>
      obtain rfl := Error.syntactic.inj (Except.error.inj h)
      exact hP.closing hlead hf
  | case7 c ch rest hc hlead name slash next hs =>
      obtain rfl := Error.syntactic.inj (Except.error.inj h)
      exact hP.stray hlead hs
  | case8 => cases h
  | case9 => cases Except.error.inj h
  | case10 opened c ch rest hc hlead f hf =>
      obtain rfl := Error.syntactic.inj (Except.error.inj h)
      exact hP.opening hlead hf
  | case11 opened c ch rest hc hlead o next ho v hv ih =>
      exact hP.reaches ((Reader.advances_opening.reaches ho).trans (reaches_skipLineBreak next)) (ih h)
  | case12 opened c ch rest hc hlead o next ho ps hps f hf ih =>
      obtain rfl := Except.error.inj h
      exact hP.reaches (Reader.advances_opening.reaches ho) (ih (settleClosing_error hf))
  | case13 opened c ch rest hc hlead o next ho ps hps k taken hk _ ih =>
      have hreach := (Reader.advances_opening.reaches ho).trans
        ((next.reaches_advance _).trans (reaches_skipLineBreak (next.skipTo k.after)))
      exact hP.reaches hreach (ih h)

theorem explains_rejects : Explains Cursor.Rejects where
  reaches := Cursor.Reaches.rejects
  unclosed := fun c _ => .inl (c.points_unclosed _)
  slot := rejects_of_slot_error
  closing := fun _ h => .inl (Reader.pointing_closing.points h)
  stray := fun hlead h => .inl (points_strayClosing hlead h)
  opening := fun _ h => .inl (Reader.pointing_opening.points h)

/-- What is no template is none for a scan either, for the same reason. -/
theorem scan_of_from?_error {c : Cursor} {e : Error} (h : Node.from? c = .error e) :
    scan none c = .error e := by
  fun_induction Node.from? c with
  | case1 => cases h
  | case2 c ch rest hc hlead f hf ih =>
      obtain rfl := Except.error.inj h
      rw [scan_text hc hlead, ih hf]
  | case3 => cases h
  | case4 c ch rest hc hlead f hf =>
      obtain rfl := Except.error.inj h
      exact scan_slot_error hlead hf
  | case5 c ch rest hc hlead s next hs f hf ih =>
      obtain rfl := Except.error.inj h
      rw [scan_slot hlead hs, ih hf]
  | case6 => cases h
  | case7 c ch rest hc hlead f hf =>
      obtain rfl := Except.error.inj h
      rw [scan_closing_eq hlead, hf]
  | case8 c ch rest hc hlead name slash next hs =>
      obtain rfl := Except.error.inj h
      rw [scan_closing_eq hlead, hs]
  | case9 c ch rest hc hlead f hf =>
      obtain rfl := Except.error.inj h
      exact scan_opening_error hlead hf
  | case10 c ch rest hc hlead d source next hd f hf ih =>
      obtain rfl := Except.error.inj h
      rw [scan_opening hlead hd, ih hf]
  | case11 => cases h

theorem Explains.exists_of_parse {P : Cursor → SyntaxError → Prop} (hP : Explains P) {t : Text}
    {e : SyntaxError} (h : parse t = .error (.syntactic e)) : ∃ f, P (Cursor.start t) f ∧ e = f.locate t := by
  unfold parse at h
  cases hnodes : Node.from? (Cursor.start t) with
  | ok ns =>
      rw [hnodes] at h
      cases h
  | error g =>
      rw [hnodes] at h
      have hlocated : g.locate t = .syntactic e := Except.error.inj h
      cases g with
      | syntactic f =>
          exact ⟨f, hP.scan_error (scan_of_from?_error hnodes), (Error.syntactic.inj hlocated).symm⟩
      | _ => cases hlocated

theorem exists_rejects_of_parse {t : Text} {e : SyntaxError} (h : parse t = .error (.syntactic e)) :
    ∃ f, (Cursor.start t).Rejects f ∧ e = f.locate t := explains_rejects.exists_of_parse h

/-! ## Lines and columns -/

/-- The column counts the characters of the line that stand before the error. -/
theorem SyntaxError.locate_column {e : SyntaxError} {lines last after : Text}
    (hplace : e.offset = Text.size (lines ++ last)) (hlines : Text.StartsLine lines) (hlast : '\n' ∉ last) :
    (e.locate (lines ++ last ++ after)).column = last.length + 1 := by
  have hline : (lines ++ last).reverse.takeWhile (· ≠ '\n') = last.reverse := by
    rw [List.reverse_append]
    refine Reader.takeWhile_append_of_head? (fun c hc => ?_) fun c hc => ?_
    · have hne : c ≠ '\n' := fun heq => hlast (heq ▸ List.mem_reverse.1 hc)
      simpa using hne
    · rcases hlines with rfl | hbreak
      · cases hc
      · rw [List.head?_reverse, hbreak] at hc
        simpa using (Option.some.inj hc).symm
  simp only [SyntaxError.locate, hplace, Text.takeBytes_append, hline, List.length_reverse]

/-- The error is that of an expression which goes on at the end of its slot: the place is the double brace
of the slot, and the end of input is shown there. -/
def BreaksOff (t : Text) (e : SyntaxError) : Prop :=
  ∃ front inside back f, t = front ++ (inside ++ (slotEnd ++ back)) ∧ OpensSlot front ∧
    Text.before? slotEnd (inside ++ (slotEnd ++ back)) = some inside ∧
    Arithmetic.parse inside = .error f ∧ f.offset = Text.size inside ∧
    e = (f.rebase (Text.size front)).locate t

theorem BreaksOff.found {t : Text} {e : SyntaxError} (h : BreaksOff t e) :
    e.found = none ∧ e.offset < Text.size t := by
  obtain ⟨front, inside, back, f, rfl, -, -, hf, hplace, rfl⟩ := h
  obtain ⟨before, after, hsplit, hoffset, hfound⟩ := Arithmetic.place_of_parse hf
  constructor
  · refine hfound.2 (Text.eq_nil_of_size ?_)
    rw [hplace, hsplit, Text.size_append] at hoffset
    omega
  · have hbrace : 0 < Text.size slotEnd := by decide
    show f.offset + Text.size front < _
    rw [hplace]
    simp only [Text.size_append]
    omega

/-- The place of an error divides the template. The end of input is shown at the end and where an expression
breaks off. -/
theorem exists_place_of_rejects {t : Text} {f : SyntaxError} (hf : (Cursor.start t).Rejects f) :
    ∃ before after, t = before ++ after ∧ f.offset = Text.size before ∧
      (f.found = none ↔ after = [] ∨ BreaksOff t (f.locate t)) := by
  rcases hf with ⟨before, after, ht, hoffset, hfound⟩ |
    ⟨front, inside, back, g, ht, hopens, hinside, hg, hend, rfl⟩
  · replace hoffset : f.offset = Text.size before := by rw [hoffset]; exact Nat.zero_add _
    exact ⟨before, after, ht, hoffset, fun hnone => .inl (hfound.1 hnone),
      fun hor => hor.elim hfound.2 fun hbreaks => hbreaks.found.1⟩
  · have hbreaks : BreaksOff t ((g.rebase ((Cursor.start t).offset + Text.size front)).locate t) :=
      ⟨front, inside, back, g, ht, hopens, hinside, hg, hend, by
        rw [show (Cursor.start t).offset + Text.size front = Text.size front from Nat.zero_add _]⟩
    refine ⟨front ++ inside, slotEnd ++ back, ?_, ?_, iff_of_true hbreaks.found.1 (.inr hbreaks)⟩
    · rw [List.append_assoc]
      exact ht
    · show g.offset + (0 + Text.size front) = _
      rw [hend, Text.size_append]
      omega

/-- The place of a syntax error is between two characters of the template, on the line and at the column that
are reported. It shows the end of input at the end of the template, and also, with the rest of the template
behind it, where the expression of a slot goes on at the end of its slot. -/
theorem syntax_error_position {t : Text} {e : SyntaxError} (h : parse t = .error (.syntactic e)) :
    (∃ before after lines last, t = before ++ after ∧ e.offset = Text.size before ∧
      e.line = before.count '\n' + 1 ∧ before = lines ++ last ∧ Text.StartsLine lines ∧ '\n' ∉ last ∧
      e.column = last.length + 1) ∧
    (e.found = none ↔ e.offset = Text.size t ∨ BreaksOff t e) ∧
    ((e.found = none ↔ e.offset = Text.size t) ↔ ¬ BreaksOff t e) := by
  obtain ⟨f, hf, rfl⟩ := exists_rejects_of_parse h
  obtain ⟨before, after, rfl, hoffset, hfound⟩ := exists_place_of_rejects hf
  obtain ⟨lines, last, rfl, hlines, hlast⟩ := Text.exists_line_end before
  have hend : f.offset = Text.size (lines ++ last ++ after) ↔ after = [] := by
    rw [hoffset, Text.size_append _ after]
    refine ⟨fun heq => Text.eq_nil_of_size (by omega), ?_⟩
    rintro rfl
    rfl
  have hall : f.found = none ↔ f.offset = Text.size (lines ++ last ++ after) ∨
      BreaksOff (lines ++ last ++ after) (f.locate (lines ++ last ++ after)) := by rw [hfound, hend]
  refine ⟨⟨lines ++ last, after, lines, last, rfl, hoffset, ?_, rfl, hlines, hlast,
    SyntaxError.locate_column hoffset hlines hlast⟩, hall, ?_⟩
  · simp only [SyntaxError.locate, hoffset, Text.takeBytes_append]
  · show (f.found = none ↔ f.offset = _) ↔ _
    rw [hall]
    constructor
    · intro hiff hbreaks
      exact absurd (hiff.1 (.inr hbreaks)) (Nat.ne_of_lt hbreaks.found.2)
    · intro hno
      exact or_iff_left hno

theorem exists_of_rejected {t : Text} {P : SyntaxError → Prop} [DecidablePred P]
    (h : (match parse t with
      | .error (.syntactic e) => decide (P e)
      | _ => false) = true) : ∃ e, parse t = .error (.syntactic e) ∧ P e := by
  split at h
  next e he => exact ⟨e, he, of_decide_eq_true h⟩
  next => cases h

def crowdedText : Text := bracketed "one\né [[two three]]"

theorem syntax_error_position_crowded : ∃ e, parse crowdedText = .error (.syntactic e) ∧
    (e.found = some ['t'] ∧ e.offset = 13 ∧ e.line = 2 ∧ e.column = 9) ∧
    ∃ before after lines last, crowdedText = before ++ after ∧ e.offset = Text.size before ∧
      e.line = before.count '\n' + 1 ∧ before = lines ++ last ∧ Text.StartsLine lines ∧ '\n' ∉ last ∧
      e.column = last.length + 1 := by
  obtain ⟨e, hparse, he⟩ := exists_of_rejected (t := crowdedText)
    (P := fun e => e.found = some ['t'] ∧ e.offset = 13 ∧ e.line = 2 ∧ e.column = 9) (by decide +kernel)
  exact ⟨e, hparse, he, (syntax_error_position hparse).1⟩

def unfinishedSum : Text := bracketed "[[2+]]"

/-- The end of input is shown where the double brace stands. -/
theorem parse_unfinishedSum : ∃ e, parse unfinishedSum = .error (.syntactic e) ∧
    e.found = none ∧ e.offset = 4 ∧ Text.size unfinishedSum = 6 :=
  exists_of_rejected (P := fun e => e.found = none ∧ e.offset = 4 ∧ Text.size unfinishedSum = 6)
    (by decide +kernel)

end Stencil
