import Stencil.Proofs.Tag.ClosedTags
import Stencil.Tag.Node

/-! # Reading in context

`Reads r t ns` says that the text `t`, before the text `r`, is read as the nodes `ns`. Slots and
definitions in it are read by themselves (`SlotText`, `DefinitionText`), so that only a brace that
stays text looks at what comes behind it. The nodes of a text (`parse_of_reads`) and the scan for a
closing tag (`scan_of_reads`) follow it. -/
set_option autoImplicit false
namespace Stencil

/-! ## What a brace begins -/

def leadBefore : Option Char → Lead
  | none => .text
  | some c =>
    if c = '/' then .closing
    else if isNameChar c || c = '@' || c = '}' || c = '=' then .opening
    else .text

theorem lead_brace (t : Text) :
    lead ('{' :: t) =
      if t.take 2 = ['{', '{'] then .text
      else if t.head? = some '{' then .slot
      else leadBefore (t.dropWhile isLineBlank).head? := by
  cases t with
  | nil => rfl
  | cons c t =>
      by_cases hc : c = '{'
      · subst hc
        cases t with
        | nil => rfl
        | cons d t =>
            by_cases hd : d = '{'
            · subst hd; rfl
            · rw [if_neg (by simpa using hd), if_pos (List.head?_cons ..)]
              unfold lead
              split
              next tail h => exact absurd (by simpa using h) (not_and_of_not_left _ hd)
              next => rfl
              next rest _ hno h => exact absurd (List.cons.inj h).2.symm (hno _)
              next h => exact absurd rfl (h _)
      · have htwo : (c :: t).take 2 ≠ ['{', '{'] := by simp [hc]
        rw [if_neg htwo, if_neg (by simpa using hc)]
        unfold lead
        split
        · simp_all
        · simp_all
        next rest _ _ h =>
          obtain rfl : c :: t = rest := by simpa using h
          cases hdrop : (c :: t).dropWhile isLineBlank with
          | nil => rfl
          | cons d u => rfl
        next h => exact absurd rfl (h (c :: t))

/-- What a brace begins depends on the next character, on the one behind a second brace, and on the
next one that is not blank. -/
theorem lead_brace_congr {t u : Text} (hhead : t.head? = u.head?)
    (htwo : u.head? = some '{' → t.take 2 = u.take 2)
    (hnext : (t.dropWhile isLineBlank).head? = (u.dropWhile isLineBlank).head?) :
    lead ('{' :: t) = lead ('{' :: u) := by
  rw [lead_brace, lead_brace, hhead, hnext]
  by_cases hu : u.head? = some '{'
  · rw [htwo hu]
  · have hne : ∀ {w : Text}, w.head? ≠ some '{' → w.take 2 ≠ ['{', '{'] := by
      intro w hw heq
      cases w with
      | nil => cases heq
      | cons c w =>
          rw [List.take_succ_cons] at heq
          exact hw (by rw [(List.cons.inj heq).1]; rfl)
    rw [if_neg (hne (hhead ▸ hu)), if_neg (hne hu)]

theorem lead_of_ne {c : Char} (hc : c ≠ '{') (t : Text) : lead (c :: t) = .text := by
  unfold lead
  split
  · rename_i h; exact absurd (List.cons.inj h).1 hc
  · rename_i h; exact absurd (List.cons.inj h).1 hc
  · rename_i h; exact absurd (List.cons.inj h).1 hc
  · rfl

/-! ## The recursion of the scanners -/

theorem ne_nil_of_lead {t : Text} (h : lead t ≠ .text) : ∃ ch rest, t = ch :: rest := by
  cases t with
  | nil => exact absurd rfl h
  | cons ch rest => exact ⟨ch, rest, rfl⟩

theorem scan_text {openName : Option Text} {c : Cursor} {ch : Char} {rest : Text}
    (hc : c.rest = ch :: rest) (h : lead c.rest = .text) :
    scan openName c = scan openName (c.advance 1) := by
  rw [scan.eq_def]
  split
  next hnil => rw [hc] at hnil; cases hnil
  next => simp only [h]

theorem scan_slot {openName : Option Text} {c next : Cursor} {s : Slot} (h : lead c.rest = .slot)
    (hs : Reader.slot.run c = .ok (s, next)) : scan openName c = scan openName next := by
  obtain ⟨ch, rest, hc⟩ := ne_nil_of_lead (t := c.rest) (by rw [h]; decide)
  rw [scan.eq_def]
  split
  next hnil => rw [hc] at hnil; cases hnil
  next =>
    simp only [h]
    split
    next e he => rw [hs] at he; cases he
    next s' next' hs' =>
      obtain ⟨rfl, rfl⟩ := Prod.mk.inj (Except.ok.inj (hs.symm.trans hs'))
      rfl

/-- The scan goes over a definition in one step. -/
theorem scan_opening {openName : Option Text} {c next : Cursor} {d : Definition}
    {source : DefinitionSource} (h : lead c.rest = .opening)
    (hd : Node.definition c = .ok (d, source, next)) : scan openName c = scan openName next := by
  obtain ⟨ch, rest, hc⟩ := ne_nil_of_lead (t := c.rest) (by rw [h]; decide)
  rw [scan.eq_def]
  split
  next hnil => rw [hc] at hnil; cases hnil
  next =>
    simp only [h]
    simp only [Node.definition] at hd
    split
    next e he => rw [he] at hd; cases hd
    next o after ho =>
      rw [ho] at hd
      simp only at hd
      split
      next v hv =>
        rw [hv] at hd
        simp only [Except.ok.injEq, Prod.mk.injEq] at hd
        obtain ⟨-, -, rfl⟩ := hd
        rfl
      next ps hps =>
        rw [hps] at hd
        simp only at hd
        split
        next e he => rw [he] at hd; cases hd
        next k taken hk =>
          rw [hk] at hd
          simp only [Except.ok.injEq, Prod.mk.injEq] at hd
          obtain ⟨-, -, rfl⟩ := hd
          rfl

theorem scan_closing {opened : Text} {c next : Cursor} {slash : Nat} (h : lead c.rest = .closing)
    (hs : Reader.closing.run c = .ok ((opened, slash), next)) :
    scan (some opened) c = .ok ⟨c.rest.length, next.rest.length⟩ := by
  obtain ⟨ch, rest, hc⟩ := ne_nil_of_lead (t := c.rest) (by rw [h]; decide)
  rw [scan.eq_def]
  split
  next hnil => rw [hc] at hnil; cases hnil
  next => simp only [h, hs, if_true]

namespace Node

theorem from?_nil (o : Nat) : from? ⟨o, []⟩ = .ok [] := by
  rw [from?.eq_def]

theorem from?_text {c : Cursor} {ch : Char} {rest : Text} {ns : List Node}
    (hc : c.rest = ch :: rest) (h : lead c.rest = .text) (hns : from? (c.advance 1) = .ok ns) :
    from? c = .ok (consText ch ns) := by
  rw [from?.eq_def]
  split
  next hnil => rw [hc] at hnil; cases hnil
  next ch' rest' hc' =>
    obtain ⟨rfl, rfl⟩ := List.cons.inj (hc.symm.trans hc')
    simp only [h, hns]

theorem from?_slot {c next : Cursor} {s : Slot} {ns : List Node} (h : lead c.rest = .slot)
    (hs : Reader.slot.run c = .ok (s, next)) (hns : from? next = .ok ns) :
    from? c = .ok (.slot s (c.upto next) :: ns) := by
  obtain ⟨ch, rest, hc⟩ := ne_nil_of_lead (t := c.rest) (by rw [h]; decide)
  rw [from?.eq_def]
  split
  next hnil => rw [hc] at hnil; cases hnil
  next =>
    simp only [h]
    split
    next e he => rw [hs] at he; cases he
    next s' next' hs' =>
      obtain ⟨rfl, rfl⟩ := Prod.mk.inj (Except.ok.inj (hs.symm.trans hs'))
      rw [hns]

theorem from?_opening {c next : Cursor} {d : Definition} {source : DefinitionSource}
    {ns : List Node} (h : lead c.rest = .opening) (hd : definition c = .ok (d, source, next))
    (hns : from? next = .ok ns) : from? c = .ok (.define d source :: ns) := by
  obtain ⟨ch, rest, hc⟩ := ne_nil_of_lead (t := c.rest) (by rw [h]; decide)
  rw [from?.eq_def]
  split
  next hnil => rw [hc] at hnil; cases hnil
  next =>
    simp only [h]
    split
    next e he => rw [hd] at he; cases he
    next d' source' next' hd' =>
      obtain ⟨rfl, rfl, rfl⟩ : d = d' ∧ source = source' ∧ next = next' := by
        simpa using hd.symm.trans hd'
      rw [hns]

end Node

/-! ## Tags that are read by themselves -/

def lineBreak (t : Text) : Text :=
  match t with
  | '\n' :: _ => ['\n']
  | '\r' :: '\n' :: _ => ['\r', '\n']
  | _ => []

/-- The text is a slot, whatever comes behind it. -/
def SlotText (z : Text) (s : Slot) : Prop :=
  (∀ w, lead (z ++ w) = .slot) ∧ ∀ w, Reader.Takes Reader.slot z s w

/-- The three texts are a definition, which takes a line break behind it and else does not depend on
what comes there. -/
def DefinitionText (opening : Text) (body : Option Text) (closing : Text) (d : Definition) : Prop :=
  (∀ w, lead (opening ++ w) = .opening) ∧ ∀ o w,
    Node.definition ⟨o, opening ++ (body.getD [] ++ (closing ++ w))⟩ =
      .ok (d, ⟨opening, body, closing ++ lineBreak w⟩,
        skipLineBreak ⟨o + Text.size (opening ++ (body.getD [] ++ closing)), w⟩)

theorem lineBreak_append_skipLineBreak (o : Nat) (w : Text) :
    w = lineBreak w ++ (skipLineBreak ⟨o, w⟩).rest ∧
      (skipLineBreak ⟨o, w⟩).offset = o + Text.size (lineBreak w) := by
  unfold lineBreak skipLineBreak
  split <;> simp [Cursor.advance]

/-- Before `r`, the text is read as the nodes. -/
inductive Reads (r : Text) : Text → List Node → Prop
  | nil : Reads r [] []
  | text {ch : Char} {t : Text} {ns : List Node} : lead (ch :: (t ++ r)) = .text → Reads r t ns →
      Reads r (ch :: t) (Node.consText ch ns)
  | slot {z t : Text} {s : Slot} {ns : List Node} : SlotText z s → Reads r t ns →
      Reads r (z ++ t) (.slot s z :: ns)
  | define {opening closing br t : Text} {body : Option Text} {d : Definition} {ns : List Node} :
      DefinitionText opening body closing d → lineBreak (br ++ (t ++ r)) = br → Reads r t ns →
      Reads r (opening ++ (body.getD [] ++ (closing ++ (br ++ t))))
        (.define d ⟨opening, body, closing ++ br⟩ :: ns)

theorem skipLineBreak_of_lineBreak {br w : Text} (h : lineBreak (br ++ w) = br) (o : Nat) :
    skipLineBreak ⟨o, br ++ w⟩ = ⟨o + Text.size br, w⟩ := by
  obtain ⟨hrest, hoffset⟩ := lineBreak_append_skipLineBreak o (br ++ w)
  rw [h] at hrest hoffset
  have hw : (skipLineBreak ⟨o, br ++ w⟩).rest = w := (List.append_cancel_left hrest).symm
  exact (Cursor.mk.injEq ..).mpr ⟨hoffset, hw⟩

theorem scan_of_reads {r t : Text} {ns : List Node} (h : Reads r t ns) :
    ∀ (openName : Option Text) (o : Nat),
      scan openName ⟨o, t ++ r⟩ = scan openName ⟨o + Text.size t, r⟩ := by
  induction h with
  | nil => intro openName o; rfl
  | @text ch t ns hlead _ ih =>
      intro openName o
      rw [scan_text (c := ⟨o, ch :: t ++ r⟩) rfl hlead]
      have hnext : Cursor.advance ⟨o, ch :: t ++ r⟩ 1 = ⟨o + ch.utf8Size, t ++ r⟩ := by
        simp [Cursor.advance]
      rw [hnext, ih, Text.size_cons, Nat.add_assoc]
  | @slot z t s ns hz _ ih =>
      intro openName o
      rw [List.append_assoc, scan_slot (hz.1 _) (hz.2 _ o), ih, Text.size_append, Nat.add_assoc]
  | @define opening closing br t body d ns hd hbr _ ih =>
      intro openName o
      have hdef := hd.2 o (br ++ (t ++ r))
      rw [hbr, skipLineBreak_of_lineBreak hbr] at hdef
      have htext : opening ++ (body.getD [] ++ (closing ++ (br ++ t))) ++ r =
          opening ++ (body.getD [] ++ (closing ++ (br ++ (t ++ r)))) := by simp
      rw [htext, scan_opening (hd.1 _) hdef, ih]
      simp [Nat.add_assoc]

theorem from?_of_reads {t : Text} {ns : List Node} (h : Reads [] t ns) :
    ∀ o, Node.from? ⟨o, t⟩ = .ok ns := by
  induction h with
  | nil => exact Node.from?_nil
  | @text ch t ns hlead _ ih =>
      intro o
      rw [List.append_nil] at hlead
      exact Node.from?_text (c := ⟨o, ch :: t⟩) rfl hlead (by simpa [Cursor.advance] using ih _)
  | @slot z t s ns hz _ ih =>
      intro o
      have hslot := Node.from?_slot (c := ⟨o, z ++ t⟩) (hz.1 t) (hz.2 t o) (ih _)
      simpa [Cursor.upto] using hslot
  | @define opening closing br t body d ns hd hbr _ ih =>
      intro o
      rw [List.append_nil] at hbr
      have hdef := hd.2 o (br ++ t)
      rw [hbr, skipLineBreak_of_lineBreak hbr] at hdef
      exact Node.from?_opening (c := ⟨o, _⟩) (hd.1 _) hdef (ih _)

theorem parse_of_reads {t : Text} {ns : List Node} (h : Reads [] t ns) : parse t = .ok ns := by
  rw [parse, Cursor.start, from?_of_reads h]
  rfl

/-- A text written with brackets for its braces. -/
def bracketed (s : String) : Text :=
  s.toList.map fun c => if c = '[' then '{' else if c = ']' then '}' else c

end Stencil
