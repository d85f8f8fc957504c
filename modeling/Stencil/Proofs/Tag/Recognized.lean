import Stencil.Proofs.Tag.Reads

/-! # Recognized tags

What the scanners find is read in the same way by itself: a slot is a `SlotText`
(`slotText_of_run`), a single tag and a block whose content is read are a `DefinitionText`
(`definitionText_single`, `definitionText_block`). -/
set_option autoImplicit false
namespace Stencil

open Reader (Takes Ends)

theorem Cursor.upto_of_append {c next : Cursor} {z : Text} (h : c.rest = z ++ next.rest) :
    c.upto next = z := by
  simp [Cursor.upto, h]

theorem Cursor.upto_append (o p : Nat) (s t : Text) : Cursor.upto ⟨o, s ++ t⟩ ⟨p, t⟩ = s :=
  Cursor.upto_of_append rfl

theorem exists_cons_of_lead {t : Text} (h : lead t ≠ .text) : ∃ u, t = '{' :: u := by
  obtain ⟨c, u, rfl⟩ := ne_nil_of_lead h
  by_cases hc : c = '{'
  · exact ⟨u, by rw [hc]⟩
  · rw [lead_of_ne hc] at h
    exact absurd rfl h

theorem head?_of_closing {t : Text} (h : lead t = .closing) : t.head? = some '{' := by
  obtain ⟨u, rfl⟩ := exists_cons_of_lead (t := t) (by rw [h]; decide)
  rfl

/-! ## Slots -/

theorem exists_of_lead_slot {t : Text} (h : lead t = .slot) :
    ∃ u, t = '{' :: '{' :: u ∧ u.head? ≠ some '{' := by
  obtain ⟨c, t, rfl⟩ := ne_nil_of_lead (t := t) (by rw [h]; decide)
  by_cases hc : c = '{'
  · subst hc
    rw [lead_brace] at h
    by_cases htwo : t.take 2 = ['{', '{']
    · rw [if_pos htwo] at h
      cases h
    · rw [if_neg htwo] at h
      by_cases hhead : t.head? = some '{'
      · obtain ⟨u, rfl⟩ := List.head?_eq_some_iff.1 hhead
        refine ⟨u, rfl, fun hu => htwo ?_⟩
        obtain ⟨u, rfl⟩ := List.head?_eq_some_iff.1 hu
        rfl
      · rw [if_neg hhead] at h
        unfold leadBefore at h
        repeat' split at h
        all_goals cases h
  · rw [lead_of_ne hc] at h
    cases h

theorem lead_slot {u : Text} (hne : u ≠ []) (hu : u.head? ≠ some '{') (w : Text) :
    lead ('{' :: '{' :: u ++ w) = .slot := by
  obtain ⟨c, u, rfl⟩ := List.exists_cons_of_ne_nil hne
  have hc : c ≠ '{' := by simpa using hu
  rw [List.cons_append, lead_brace, if_neg (by simp [hc]), if_pos (by simp)]

theorem slotText_of_run {c next : Cursor} {s : Slot} (hlead : lead c.rest = .slot)
    (h : Reader.slot.run c = .ok (s, next)) :
    SlotText (c.upto next) s ∧ c.rest = c.upto next ++ next.rest := by
  obtain ⟨z, hz, -, htakes⟩ := Reader.closed_slot.takes h
  rw [Cursor.upto_of_append hz]
  refine ⟨⟨?_, htakes⟩, hz⟩
  obtain ⟨u, hu, hhead⟩ := exists_of_lead_slot hlead
  obtain ⟨y, hy⟩ := Reader.finishes_slot.finishes h
  obtain rfl : z = y ++ Reader.slotEnd :=
    List.append_cancel_right ((hz.symm.trans hy).trans (List.append_assoc ..).symm)
  rw [hu] at hy
  -- the two braces at the end are not the two at the start
  match y with
  | [] => simp [Reader.slotEnd] at hy
  | [a] => simp [Reader.slotEnd] at hy
  | a :: b :: y =>
      simp only [List.cons_append, List.cons.injEq] at hy
      obtain ⟨rfl, rfl, hrest⟩ := hy
      intro w
      have hne : y ++ Reader.slotEnd ≠ [] := by simp [Reader.slotEnd]
      refine lead_slot hne ?_ w
      obtain ⟨d, v, hv⟩ := List.exists_cons_of_ne_nil hne
      rw [hrest, ← List.append_assoc, hv] at hhead
      rw [hv]
      exact hhead

/-! ## Closing tags -/

namespace Reader

theorem closingName_of_closing {c next : Cursor} {n : Text} {slash : Nat}
    (h : closing.run c = .ok ((n, slash), next)) : closingName.run c = .ok (n, next) := by
  obtain ⟨_, c₁, h₁, h⟩ := exists_of_run_bind h
  obtain ⟨_, c₂, h₂, h⟩ := exists_of_run_bind h
  obtain ⟨_, c₃, h₃, h⟩ := exists_of_run_bind h
  obtain ⟨-, rfl⟩ := Prod.mk.inj (Except.ok.inj h₃)
  obtain ⟨_, c₄, h₄, h⟩ := exists_of_run_bind h
  obtain ⟨_, c₅, h₅, h⟩ := exists_of_run_bind h
  obtain ⟨_, c₆, h₆, h⟩ := exists_of_run_bind h
  obtain ⟨_, c₇, h₇, h⟩ := exists_of_run_bind h
  obtain ⟨_, c₈, h₈, h⟩ := exists_of_run_bind h
  obtain ⟨heq, rfl⟩ := Prod.mk.inj (Except.ok.inj h)
  obtain ⟨rfl, -⟩ := Prod.mk.inj heq
  unfold closingName
  rw [run_bind_of h₁, run_bind_of h₂, run_bind_of h₄, run_bind_of h₅, run_bind_of h₆,
    run_bind_of h₇, run_bind_of h₈]
  rfl

theorem exists_of_closingName {c next : Cursor} {n : Text}
    (h : closingName.run c = .ok (n, next)) :
    ∃ slash, closing.run c = .ok ((n, slash), next) := by
  obtain ⟨_, c₁, h₁, h⟩ := exists_of_run_bind h
  obtain ⟨_, c₂, h₂, h⟩ := exists_of_run_bind h
  obtain ⟨_, c₄, h₄, h⟩ := exists_of_run_bind h
  obtain ⟨_, c₅, h₅, h⟩ := exists_of_run_bind h
  obtain ⟨_, c₆, h₆, h⟩ := exists_of_run_bind h
  obtain ⟨_, c₇, h₇, h⟩ := exists_of_run_bind h
  obtain ⟨_, c₈, h₈, h⟩ := exists_of_run_bind h
  obtain ⟨rfl, rfl⟩ := Prod.mk.inj (Except.ok.inj h)
  refine ⟨c₂.offset, ?_⟩
  unfold closing
  have hget : (get : Reader Cursor).run c₂ = .ok (c₂, c₂) := rfl
  rw [run_bind_of h₁, run_bind_of h₂, run_bind_of hget, run_bind_of h₄, run_bind_of h₅,
    run_bind_of h₆, run_bind_of h₇, run_bind_of h₈]
  rfl

end Reader

/-- The text is a closing tag for the name, whatever comes behind it. -/
def ClosingText (z name : Text) : Prop :=
  (∀ w, lead (z ++ w) = .closing) ∧ ∀ w, Takes Reader.closingName z name w

/-- A definition tag shows with its closing brace what it is. -/
theorem lead_append_of_mem {z r : Text} (hz : '}' ∈ z) (htext : lead (z ++ r) ≠ .text)
    (hslot : lead (z ++ r) ≠ .slot) (w : Text) : lead (z ++ w) = lead (z ++ r) := by
  obtain ⟨c, z, rfl⟩ := List.exists_cons_of_ne_nil (List.ne_nil_of_mem hz)
  by_cases hc : c = '{'
  · subst hc
    have hz' : '}' ∈ z := (List.mem_cons.1 hz).resolve_left (by decide)
    obtain ⟨d, u, rfl⟩ := List.exists_cons_of_ne_nil (List.ne_nil_of_mem hz')
    have hdrop : ∀ v, ((d :: u ++ v).dropWhile isLineBlank).head? =
        ((d :: u).dropWhile isLineBlank).head? := by
      intro v
      obtain ⟨heq, hmem⟩ := Reader.dropWhile_append_of_mem (p := isLineBlank) (by decide) hz' v
      obtain ⟨e, t, ht⟩ := List.exists_cons_of_ne_nil (List.ne_nil_of_mem hmem)
      rw [heq, ht]
      rfl
    rw [List.cons_append, lead_brace] at htext hslot
    show lead ('{' :: (d :: u ++ w)) = lead ('{' :: (d :: u ++ r))
    rw [lead_brace, lead_brace]
    by_cases hd : d = '{'
    · subst hd
      by_cases htwo : ('{' :: u ++ r).take 2 = ['{', '{']
      · rw [if_pos htwo] at htext
        exact absurd rfl htext
      · rw [if_neg htwo, if_pos (by simp)] at hslot
        exact absurd rfl hslot
    · have htwo : ∀ v, (d :: u ++ v).take 2 ≠ ['{', '{'] := by simp [hd]
      have hhead : ∀ v, (d :: u ++ v).head? ≠ some '{' := by simp [hd]
      rw [if_neg (htwo w), if_neg (hhead w), if_neg (htwo r), if_neg (hhead r), hdrop, hdrop]
  · rw [List.cons_append, lead_of_ne hc] at htext
    exact absurd rfl htext

theorem closingText_of_run {c next : Cursor} {n : Text} {slash : Nat}
    (hlead : lead c.rest = .closing) (h : Reader.closing.run c = .ok ((n, slash), next)) :
    ClosingText (c.upto next) n ∧ c.rest = c.upto next ++ next.rest := by
  have hname := Reader.closingName_of_closing h
  obtain ⟨z, hz, -, htakes⟩ := Reader.closed_closingName.takes hname
  rw [Cursor.upto_of_append hz]
  obtain ⟨y, hy⟩ := Reader.finishes_closingName.finishes hname
  obtain rfl : z = y ++ ['}'] :=
    List.append_cancel_right ((hz.symm.trans hy).trans (List.append_assoc ..).symm)
  rw [hz] at hlead
  refine ⟨⟨fun w => ?_, htakes⟩, hz⟩
  have hmem : '}' ∈ y ++ ['}'] := by simp
  have hsame := lead_append_of_mem (r := next.rest) hmem (by rw [hlead]; decide)
    (by rw [hlead]; decide) w
  rw [hsame, hlead]

/-! ## Definitions -/

def OpeningText (z : Text) (o : Opening) : Prop :=
  (∀ w, lead (z ++ w) = .opening) ∧ ∀ w, Takes Reader.opening z o w

theorem openingText_of_run {c next : Cursor} {o : Opening} (hlead : lead c.rest = .opening)
    (h : Reader.opening.run c = .ok (o, next)) :
    OpeningText (c.upto next) o ∧ c.rest = c.upto next ++ next.rest := by
  obtain ⟨z, hz, -, htakes⟩ := Reader.closed_opening.takes h
  rw [Cursor.upto_of_append hz]
  obtain ⟨y, hy⟩ := Reader.finishes_opening.finishes h
  obtain rfl : z = y ++ ['}'] :=
    List.append_cancel_right ((hz.symm.trans hy).trans (List.append_assoc ..).symm)
  rw [hz] at hlead
  refine ⟨⟨fun w => ?_, htakes⟩, hz⟩
  have hmem : '}' ∈ y ++ ['}'] := by simp
  have hsame := lead_append_of_mem (r := next.rest) hmem (by rw [hlead]; decide)
    (by rw [hlead]; decide) w
  rw [hsame, hlead]

theorem upto_skipLineBreak (o : Nat) (w : Text) :
    Cursor.upto ⟨o, w⟩ (skipLineBreak ⟨o, w⟩) = lineBreak w :=
  Cursor.upto_of_append (lineBreak_append_skipLineBreak o w).1

theorem definitionText_single {z : Text} {o : Opening} {v : Value} (h : OpeningText z o)
    (hv : o.form = .single v) : DefinitionText z none [] (Node.singleDefinition o v) := by
  refine ⟨h.1, fun offset w => ?_⟩
  have hrun := h.2 w offset
  simp only [Option.getD_none, List.nil_append, List.append_nil, Node.definition, hrun, hv]
  simp only [upto_skipLineBreak, Cursor.upto_append]

/-- A block whose content is read up to its closing tag. -/
theorem definitionText_block {opening content closing : Text} {o : Opening} {ps : Params}
    {ns : List Node} (ho : OpeningText opening o) (hform : o.form = .block ps)
    (hcontent : ∀ w, Reads (closing ++ w) content ns) (hclosing : ClosingText closing o.name) :
    DefinitionText opening (some content) closing
      { name := o.name, required := ps.required, optional := ps.optional,
        content := trimLineBreaks content, raw := o.raw } := by
  refine ⟨ho.1, fun offset w => ?_⟩
  have hrun := ho.2 (content ++ (closing ++ w)) offset
  have hscan := scan_of_reads (hcontent w) (some o.name) (offset + Text.size opening)
  have hlead := hclosing.1 w
  obtain ⟨slash, hslash⟩ := Reader.exists_of_closingName
    (hclosing.2 w (offset + Text.size opening + Text.size content))
  rw [scan_closing hlead hslash] at hscan
  have hleft : Cursor.skipTo ⟨offset + Text.size opening, content ++ (closing ++ w)⟩
      (closing ++ w).length =
        ⟨offset + Text.size opening + Text.size content, closing ++ w⟩ :=
    Cursor.skipTo_append ..
  have hafter : Cursor.skipTo ⟨offset + Text.size opening, content ++ (closing ++ w)⟩ w.length =
      ⟨offset + Text.size (opening ++ (content ++ closing)), w⟩ := by
    rw [← List.append_assoc content, Cursor.skipTo_append]
    simp [Nat.add_assoc]
  have hclosed : Cursor.upto ⟨offset + Text.size opening + Text.size content, closing ++ w⟩
      (skipLineBreak ⟨offset + Text.size (opening ++ (content ++ closing)), w⟩) =
        closing ++ lineBreak w := by
    apply Cursor.upto_of_append
    rw [List.append_assoc]
    exact congrArg _ (lineBreak_append_skipLineBreak _ w).1
  simp only [Option.getD_some, Node.definition, hrun, hform, settleClosing, hscan, hleft, hafter,
    Cursor.upto_append, hclosed, Bool.or_false]

/-! ## Definitions that were found -/

/-- A scan that succeeds ends at a closing tag for the open definition. -/
theorem exists_of_scan {opened : Option Text} {c : Cursor} : ∀ {k : Closing} {name : Text},
    opened = some name → scan opened c = .ok k → ∃ (tag last : Cursor) (slash : Nat),
      c.Reaches tag ∧ lead tag.rest = .closing ∧ tag.rest.length = k.left ∧
      Reader.closing.run tag = .ok ((name, slash), last) ∧ last.rest.length = k.after := by
  fun_induction scan opened c with
  | case1 => intro k name hopened; cases hopened
  | case2 => intro k name _ h; cases h
  | case3 opened c ch rest hc hlead ih =>
      intro k name hopened h
      obtain ⟨tag, last, slash, hreach, htag⟩ := ih hopened h
      exact ⟨tag, last, slash, (c.reaches_advance 1).trans hreach, htag⟩
  | case4 => intro k name _ h; cases h
  | case5 opened c ch rest hc hlead s next hs ih =>
      intro k name hopened h
      obtain ⟨tag, last, slash, hreach, htag⟩ := ih hopened h
      exact ⟨tag, last, slash, (Reader.advances_slot.reaches hs).trans hreach, htag⟩
  | case6 => intro k name _ h; cases h
  | case7 => intro k name hopened; cases hopened
  | case8 c ch rest hc hlead slash next name' hs =>
      intro k name hopened h
      obtain rfl := Option.some.inj hopened
      obtain rfl := Except.ok.inj h
      exact ⟨c, next, slash, Cursor.Reaches.refl c, hlead, rfl, hs, rfl⟩
  | case9 => intro k name _ h; cases h
  | case10 => intro k name _ h; cases h
  | case11 opened c ch rest hc hlead o next ho v hv ih =>
      intro k name hopened h
      obtain ⟨tag, last, slash, hreach, htag⟩ := ih hopened h
      exact ⟨tag, last, slash, (Reader.advances_opening.reaches ho).trans
        ((reaches_skipLineBreak next).trans hreach), htag⟩
  | case12 => intro k name _ h; cases h
  | case13 opened c ch rest hc hlead o next ho ps hps j taken hj _ ih =>
      intro k name hopened h
      obtain ⟨tag, last, slash, hreach, htag⟩ := ih hopened h
      exact ⟨tag, last, slash, (Reader.advances_opening.reaches ho).trans
        ((next.reaches_advance _).trans ((reaches_skipLineBreak _).trans hreach)), htag⟩

theorem Cursor.upto_trans {c mid last : Cursor} (h : c.Reaches mid) (h' : mid.Reaches last) :
    c.upto last = c.upto mid ++ mid.upto last := by
  apply Cursor.upto_of_append
  rw [List.append_assoc, h'.upto_append, h.upto_append]

theorem Cursor.Reaches.skipTo {c later : Cursor} (h : c.Reaches later) :
    c.skipTo later.rest.length = later := by
  obtain ⟨z, hz, hoffset⟩ := h
  obtain ⟨o, rest⟩ := c
  obtain ⟨o', rest'⟩ := later
  obtain rfl : rest = z ++ rest' := hz
  obtain rfl : o' = o + Text.size z := hoffset
  exact Cursor.skipTo_append ..

theorem lineBreak_of_skipLineBreak (c : Cursor) :
    lineBreak (c.upto (skipLineBreak c) ++ (skipLineBreak c).rest) = c.upto (skipLineBreak c) := by
  obtain ⟨o, w⟩ := c
  rw [upto_skipLineBreak, ← (lineBreak_append_skipLineBreak o w).1]

theorem single_of_definition {c next : Cursor} {d : Definition} {source : DefinitionSource}
    (h : Node.definition c = .ok (d, source, next)) (hbody : source.body = none) :
    ∃ o mid v, Reader.opening.run c = .ok (o, mid) ∧ o.form = .single v ∧
      d = Node.singleDefinition o v ∧ source.opening = c.upto mid ∧
      source.closing = lineBreak mid.rest ∧ next = skipLineBreak mid := by
  simp only [Node.definition] at h
  split at h
  · cases h
  next o mid ho =>
    split at h
    next v hv =>
      simp only [Except.ok.injEq, Prod.mk.injEq] at h
      obtain ⟨rfl, rfl, rfl⟩ := h
      exact ⟨o, mid, v, ho, hv, rfl, rfl, upto_skipLineBreak mid.offset mid.rest, rfl⟩
    next ps hps =>
      split at h
      · cases h
      · simp only [Except.ok.injEq, Prod.mk.injEq] at h
        obtain ⟨-, rfl, -⟩ := h
        cases hbody

theorem exists_of_definition_single {c next : Cursor} {d : Definition} {source : DefinitionSource}
    (hlead : lead c.rest = .opening) (h : Node.definition c = .ok (d, source, next))
    (hbody : source.body = none) : DefinitionText source.opening none [] d ∧
      c.rest = source.opening ++ (source.closing ++ next.rest) ∧
      lineBreak (source.closing ++ next.rest) = source.closing := by
  obtain ⟨o, mid, v, ho, hv, rfl, hopening, hclosing, rfl⟩ := single_of_definition h hbody
  obtain ⟨htag, hrest⟩ := openingText_of_run hlead ho
  rw [hopening, hclosing, ← (lineBreak_append_skipLineBreak mid.offset mid.rest).1]
  exact ⟨definitionText_single htag hv, hrest, rfl⟩

/-- A block that is not raw: its tags, and the scan of its content. -/
theorem exists_of_definition_block {c next : Cursor} {d : Definition} {source : DefinitionSource}
    {body : Text} (hlead : lead c.rest = .opening)
    (h : Node.definition c = .ok (d, source, next)) (hbody : source.body = some body)
    (hraw : d.raw = false) : ∃ (closing br : Text) (o : Opening) (ps : Params) (offset : Nat),
      OpeningText source.opening o ∧ o.form = .block ps ∧ ClosingText closing o.name ∧
      source.closing = closing ++ br ∧ lineBreak (br ++ next.rest) = br ∧
      c.rest = source.opening ++ (body ++ (closing ++ (br ++ next.rest))) ∧
      d = { name := o.name, required := ps.required, optional := ps.optional,
            content := trimLineBreaks body, raw := o.raw } ∧
      scan (some o.name) ⟨offset, body ++ (closing ++ (br ++ next.rest))⟩ =
        .ok ⟨(closing ++ (br ++ next.rest)).length, (br ++ next.rest).length⟩ := by
  simp only [Node.definition] at h
  split at h
  · cases h
  next o mid ho =>
    obtain ⟨htag, hrest⟩ := openingText_of_run hlead ho
    split at h
    next v hv =>
      simp only [Except.ok.injEq, Prod.mk.injEq] at h
      obtain ⟨-, rfl, -⟩ := h
      cases hbody
    next ps hps =>
      split at h
      · cases h
      next k taken hk =>
        simp only [Except.ok.injEq, Prod.mk.injEq] at h
        obtain ⟨rfl, rfl, rfl⟩ := h
        simp only [Bool.or_eq_false_iff] at hraw
        obtain ⟨hraw, rfl⟩ := hraw
        have hscan : scan (some o.name) mid = .ok k := by
          unfold settleClosing at hk
          repeat' split at hk
          all_goals simp_all
        obtain ⟨tag, last, slash, hreach, htaglead, hleft, hclose, hafter⟩ := exists_of_scan rfl hscan
        obtain ⟨hclosing, -⟩ := closingText_of_run htaglead hclose
        have hlast : tag.Reaches last := Reader.advances_closing.reaches hclose
        have htagcursor : mid.skipTo k.left = tag := by rw [← hleft, hreach.skipTo]
        have hlastcursor : mid.skipTo k.after = last := by
          rw [← hafter, (hreach.trans hlast).skipTo]
        rw [htagcursor] at hbody ⊢
        rw [hlastcursor] at hbody ⊢
        obtain rfl := Option.some.inj hbody
        have hbreak : last.upto (skipLineBreak last) ++ (skipLineBreak last).rest = last.rest :=
          (reaches_skipLineBreak last).upto_append
        have htagrest : tag.upto last ++ last.rest = tag.rest := hlast.upto_append
        refine ⟨tag.upto last, last.upto (skipLineBreak last), o, ps, mid.offset, htag, hps, hclosing,
          Cursor.upto_trans hlast (reaches_skipLineBreak last), lineBreak_of_skipLineBreak last, ?_,
          by simp, ?_⟩
        · rw [hbreak, htagrest, hreach.upto_append]
          exact hrest
        · rw [hbreak, htagrest, hreach.upto_append, hleft, hafter]
          exact hscan

/-! ## The source of a definition -/

/-- A closing tag that the text shows has blanks between its parts at most. -/
theorem parts_of_closingTag? {name t : Text} {after : Nat} (h : closingTag? name t = some after) :
    ∃ u v w r, (∀ c ∈ u, isLineBlank c = true) ∧ (∀ c ∈ v, isLineBlank c = true) ∧
      (∀ c ∈ w, isLineBlank c = true) ∧
      t = '{' :: (u ++ '/' :: (v ++ (name ++ (w ++ '}' :: r)))) ∧ r.length = after := by
  have hblank : ∀ u : Text, ∀ c ∈ u.takeWhile isLineBlank, isLineBlank c = true :=
    fun u => Reader.eq_true_of_mem_takeWhile
  have hsplit (u : Text) : u = u.takeWhile isLineBlank ++ u.dropWhile isLineBlank :=
    (List.takeWhile_append_dropWhile).symm
  unfold closingTag? at h
  split at h
  next u =>
    split at h
    next v hv =>
      simp only at h
      split at h
      next hname =>
        split at h
        next r hr =>
          obtain ⟨w, hw⟩ := List.isPrefixOf_iff_prefix.1 hname
          rw [← hw, List.drop_left] at hr
          refine ⟨u.takeWhile isLineBlank, v.takeWhile isLineBlank, w.takeWhile isLineBlank, r,
            hblank u, hblank v, hblank w, ?_, Option.some.inj h⟩
          have hfront := hsplit u
          have hmiddle := hsplit v
          have hrear := hsplit w
          rw [hr] at hrear
          rw [← hw] at hmiddle
          rw [hv] at hfront
          rw [← hrear, ← hmiddle, ← hfront]
        next => cases h
      next => cases h
    next => cases h
  next => cases h

theorem exists_of_closingTag? {name t : Text} {after : Nat} (h : closingTag? name t = some after) :
    ∃ z r, t = '{' :: (z ++ '}' :: r) ∧ r.length = after := by
  obtain ⟨u, v, w, r, -, -, -, rfl, hr⟩ := parts_of_closingTag? h
  exact ⟨u ++ '/' :: (v ++ (name ++ w)), r, by simp, hr⟩

theorem exists_of_findClosing? {name : Text} : ∀ {t : Text} {k : Closing},
    findClosing? name t = some k → ∃ y z r, t = y ++ '{' :: (z ++ '}' :: r) ∧
      ('{' :: (z ++ '}' :: r)).length = k.left ∧ r.length = k.after := by
  intro t
  induction t with
  | nil => intro k h; cases h
  | cons c t ih =>
      intro k h
      unfold findClosing? at h
      split at h
      next after hafter =>
        obtain rfl := Option.some.inj h
        obtain ⟨z, r, hz, hr⟩ := exists_of_closingTag? hafter
        exact ⟨[], z, r, hz, by rw [← hz]; rfl, hr⟩
      next =>
        obtain ⟨y, z, r, rfl, hleft, hafter⟩ := ih h
        exact ⟨c :: y, z, r, rfl, hleft, hafter⟩

theorem exists_of_settleClosing {name : Text} {c : Cursor} {k : Closing} {taken : Bool}
    (h : settleClosing name c.rest (scan (some name) c) = .ok (k, taken)) :
    ∃ y z r, c.rest = y ++ '{' :: (z ++ '}' :: r) ∧ ('{' :: (z ++ '}' :: r)).length = k.left ∧
      r.length = k.after := by
  unfold settleClosing at h
  split at h
  next j hj =>
    obtain ⟨rfl, -⟩ := Prod.mk.inj (Except.ok.inj h)
    obtain ⟨tag, last, slash, hreach, hlead, hleft, hclose, hafter⟩ := exists_of_scan rfl hj
    obtain ⟨y, hy, -⟩ := hreach
    obtain ⟨u, hu⟩ := exists_cons_of_lead (t := tag.rest) (by rw [hlead]; decide)
    obtain ⟨z, hz⟩ :=
      Reader.finishes_closingName.finishes (Reader.closingName_of_closing hclose)
    cases z with
    | nil =>
        rw [hu] at hz
        exact absurd (List.cons.inj hz).1 (by decide)
    | cons d z =>
        have hd : d = '{' := by
          rw [hu] at hz
          exact (List.cons.inj hz).1.symm
        subst hd
        have htag : tag.rest = '{' :: (z ++ '}' :: last.rest) := by rw [hz]; simp
        exact ⟨y, z, last.rest, by rw [hy, htag], by rw [← hleft, htag], hafter⟩
  next e he =>
    split at h
    next j hj =>
      obtain ⟨rfl, -⟩ := Prod.mk.inj (Except.ok.inj h)
      exact exists_of_findClosing? hj
    next => cases h
  next => cases h

/-- A block: its opening tag, where its closing tag was found, and its source. -/
theorem closing_of_definition {c next : Cursor} {d : Definition} {source : DefinitionSource}
    {body : Text} (h : Node.definition c = .ok (d, source, next)) (hbody : source.body = some body) :
    ∃ o mid ps k taken z r, Reader.opening.run c = .ok (o, mid) ∧ o.form = .block ps ∧
      settleClosing o.name mid.rest (scan (some o.name) mid) = .ok (k, taken) ∧
      ('{' :: (z ++ '}' :: r)).length = k.left ∧ d.raw = (o.raw || taken) ∧
      d.optional = ps.optional ∧ d.content = trimLineBreaks body ∧ source.opening = c.upto mid ∧
      source.closing = '{' :: (z ++ '}' :: lineBreak r) ∧ mid.rest = body ++ '{' :: (z ++ '}' :: r) ∧
      r = lineBreak r ++ next.rest := by
  simp only [Node.definition] at h
  split at h
  · cases h
  next o mid ho =>
    split at h
    next v hv =>
      simp only [Except.ok.injEq, Prod.mk.injEq] at h
      obtain ⟨-, rfl, -⟩ := h
      cases hbody
    next ps hps =>
      split at h
      · cases h
      next k taken hk =>
        simp only [Except.ok.injEq, Prod.mk.injEq] at h
        obtain ⟨rfl, rfl, rfl⟩ := h
        obtain ⟨y, z, r, hrest, hleft, hafter⟩ := exists_of_settleClosing hk
        obtain ⟨offset, w⟩ := mid
        obtain rfl : w = y ++ '{' :: (z ++ '}' :: r) := hrest
        have htag : Cursor.skipTo ⟨offset, y ++ '{' :: (z ++ '}' :: r)⟩ k.left =
            ⟨offset + Text.size y, '{' :: (z ++ '}' :: r)⟩ := by
          rw [← hleft, Cursor.skipTo_append]
        have hlast : Cursor.skipTo ⟨offset, y ++ '{' :: (z ++ '}' :: r)⟩ k.after =
            ⟨offset + Text.size (y ++ '{' :: (z ++ ['}'])), r⟩ := by
          have hsplit : y ++ '{' :: (z ++ '}' :: r) = (y ++ '{' :: (z ++ ['}'])) ++ r := by simp
          rw [← hafter, hsplit, Cursor.skipTo_append]
        rw [htag] at hbody ⊢
        obtain rfl : y = body := by
          rw [← Option.some.inj hbody]
          exact (Cursor.upto_append ..).symm
        rw [hlast]
        have hbreak := (lineBreak_append_skipLineBreak
          (offset + Text.size (y ++ '{' :: (z ++ ['}']))) r).1
        refine ⟨o, _, ps, k, taken, z, r, ho, hps, hk, hleft, rfl, rfl, by rw [Cursor.upto_append], rfl,
          Cursor.upto_of_append ?_, rfl, hbreak⟩
        simp only [List.cons_append, List.append_assoc]
        rw [← hbreak]

theorem opening_of_definition {c next : Cursor} {d : Definition} {source : DefinitionSource}
    (h : Node.definition c = .ok (d, source, next)) :
    ∃ o mid, Reader.opening.run c = .ok (o, mid) ∧ source.opening = c.upto mid := by
  cases hbody : source.body with
  | none =>
      obtain ⟨o, mid, v, ho, -, -, hopening, -⟩ := single_of_definition h hbody
      exact ⟨o, mid, ho, hopening⟩
  | some body =>
      obtain ⟨o, mid, ps, k, taken, z, r, ho, -, -, -, -, -, -, hopening, -⟩ :=
        closing_of_definition h hbody
      exact ⟨o, mid, ho, hopening⟩

theorem block_of_definition {c next : Cursor} {d : Definition} {source : DefinitionSource}
    {body : Text} (h : Node.definition c = .ok (d, source, next)) (hbody : source.body = some body) :
    ∃ o mid ps z r, Reader.opening.run c = .ok (o, mid) ∧ o.form = .block ps ∧
      d.optional = ps.optional ∧ d.content = trimLineBreaks body ∧ source.opening = c.upto mid ∧
      source.closing = '{' :: (z ++ '}' :: lineBreak r) ∧ mid.rest = body ++ '{' :: (z ++ '}' :: r) ∧
      r = lineBreak r ++ next.rest := by
  obtain ⟨o, mid, ps, -, -, z, r, ho, hform, -, -, -, hsource⟩ := closing_of_definition h hbody
  exact ⟨o, mid, ps, z, r, ho, hform, hsource⟩

theorem forall_getLast?_append {P : Char → Prop} {s t : Text} (ht : ∀ e ∈ t.getLast?, P e)
    (hs : t = [] → ∀ e ∈ s.getLast?, P e) : ∀ e ∈ (s ++ t).getLast?, P e := by
  rw [List.getLast?_append]
  cases h : t.getLast? with
  | none => simpa using hs (List.getLast?_eq_none_iff.1 h)
  | some d => rw [h] at ht; simpa using ht

theorem getLast?_append_ne {s t : Text} {c : Char} (ht : t.getLast? ≠ some c)
    (hs : t = [] → s.getLast? ≠ some c) : (s ++ t).getLast? ≠ some c := by
  have hne : ∀ e ∈ (s ++ t).getLast?, e ≠ c := forall_getLast?_append
    (fun e he hec => ht (hec ▸ he)) fun hnil e he hec => hs hnil (hec ▸ he)
  exact fun h => hne c h rfl

theorem getLast?_lineBreak (w : Text) : ∀ e ∈ (lineBreak w).getLast?, e = '\n' := by
  unfold lineBreak
  split <;> simp

theorem upto_of_opening {c mid : Cursor} {o : Opening} (h : Reader.opening.run c = .ok (o, mid)) :
    ∃ y, c.upto mid = y ++ ['}'] := by
  obtain ⟨y, hy⟩ := Reader.finishes_opening.finishes h
  exact ⟨y, Cursor.upto_of_append (by rw [hy]; simp)⟩

/-- A definition is its opening tag, its content and its closing tag, up to a brace and the line break that
it takes. -/
theorem text_of_definition {c next : Cursor} {d : Definition} {source : DefinitionSource}
    (h : Node.definition c = .ok (d, source, next)) : c.rest = source.text ++ next.rest ∧
      ∃ y w, source.text = y ++ '}' :: lineBreak w ∧ w = lineBreak w ++ next.rest := by
  rw [DefinitionSource.text]
  cases hbody : source.body with
  | none =>
      obtain ⟨o, mid, v, ho, -, -, hopening, hclosing, rfl⟩ := single_of_definition h hbody
      obtain ⟨y, htag⟩ := upto_of_opening ho
      have hbreak := (lineBreak_append_skipLineBreak mid.offset mid.rest).1
      rw [hopening, hclosing, Option.getD_none, List.append_nil]
      refine ⟨?_, y, mid.rest, by rw [htag]; simp, hbreak⟩
      rw [List.append_assoc, ← hbreak, (Reader.advances_opening.reaches ho).upto_append]
  | some body =>
      obtain ⟨o, mid, ps, z, r, ho, -, -, -, hopening, hclosing, hrest, hbreak⟩ :=
        block_of_definition h hbody
      rw [hopening, hclosing, Option.getD_some]
      refine ⟨?_, c.upto mid ++ body ++ '{' :: z, r, by simp, hbreak⟩
      rw [← (Reader.advances_opening.reaches ho).upto_append, hrest]
      simp only [List.append_assoc, List.cons_append]
      rw [← hbreak]

theorem source_of_definition {c next : Cursor} {d : Definition} {source : DefinitionSource}
    (h : Node.definition c = .ok (d, source, next)) :
    c.rest = source.text ++ next.rest ∧ ∀ e ∈ source.text.getLast?, e = '}' ∨ e = '\n' := by
  obtain ⟨hrest, y, w, hy, -⟩ := text_of_definition h
  refine ⟨hrest, ?_⟩
  rw [hy, List.append_cons]
  exact forall_getLast?_append (fun e he => .inr (getLast?_lineBreak w e he))
    fun _ e he => .inl (by simpa using he.symm)

end Stencil
