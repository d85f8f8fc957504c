import Stencil.Proofs.Tag.Standing

/-! # Nodes tile their text

Nodes are placed one behind the other, each as many bytes after the start of the text as the sources
before it have (`Node.placedFrom`). The places of the nodes of a template cover it without gaps, and they
are where the recognizer found the nodes: it read a slot or a definition from the first byte of its place to
the last one, by its own count of bytes (`tiling_of_parse`). -/
set_option autoImplicit false
namespace Stencil

theorem Text.size_pos {t : Text} (h : t ≠ []) : 0 < Text.size t :=
  Nat.lt_of_lt_of_le (List.length_pos_of_ne_nil h) (Text.length_le_size t)

/-- None of the spans is empty, each begins where the one before it ends, and together they go from
`start` to `stop`. -/
def Tiles (start : Nat) : List Span → Nat → Prop
  | [], stop => start = stop
  | s :: ss, stop => s.start = start ∧ s.start < s.stop ∧ Tiles s.stop ss stop

/-- The text `part` stands at the span in the text `t`; both ends lie between characters of `t`. -/
def Slice (t : Text) (s : Span) (part : Text) : Prop :=
  ∃ front back, t = front ++ (part ++ back) ∧
    s.start = Text.size front ∧ s.stop = Text.size front + Text.size part

namespace Node

def isText : Node → Bool
  | .text _ => true
  | .define _ _ => false
  | .slot _ _ => false

end Node

structure Tiling (t : Text) (ns : List Node) : Prop where
  tiles : Tiles 0 ((Node.placedFrom 0 ns).map Prod.snd) (Text.size t)
  slice : ∀ p ∈ Node.placedFrom 0 ns, Slice t p.2 p.1.source
  /-- No two neighbours are text. -/
  chain : ns.IsChain fun m n => !(m.isText && n.isText)
  slot : ∀ s source span, (.slot s source, span) ∈ Node.placedFrom 0 ns →
    (∃ inside, source = ['{', '{'] ++ inside ++ ['}', '}']) ∧
    ∃ front back, t = front ++ (source ++ back) ∧ span.start = Text.size front ∧
      Reader.slot.run ⟨span.start, source ++ back⟩ = .ok (s, ⟨span.stop, back⟩)
  definition : ∀ d source span, (.define d source, span) ∈ Node.placedFrom 0 ns →
    (∃ front back, t = front ++ (source.text ++ back) ∧ span.start = Text.size front ∧
      Node.definition ⟨span.start, source.text ++ back⟩ = .ok (d, source, ⟨span.stop, back⟩)) ∧
    ∀ body, source.body = some body →
      Slice t (source.bodySpan span.start body) body ∧
      span.start < (source.bodySpan span.start body).start ∧
      (source.bodySpan span.start body).stop < span.stop
  /-- The slots are reported at their places. -/
  slots : slotMatches t = .ok ((Node.placedFrom 0 ns).filterMap fun p =>
    p.1.slot?.map fun s => ⟨s, p.2.start, p.2.stop - p.2.start⟩)

/-! ## Places -/

namespace Node

/-- A placed node divides the nodes; its place begins behind the sources of those before it. -/
theorem exists_of_mem_placedFrom {n : Node} {span : Span} : ∀ {ns : List Node} {offset : Nat},
    (n, span) ∈ placedFrom offset ns → ∃ as bs, ns = as ++ n :: bs ∧
      span.start = offset + Text.size (as.flatMap source) ∧
      span.stop = span.start + Text.size n.source := by
  intro ns
  induction ns with
  | nil => intro offset h; cases h
  | cons m ms ih =>
      intro offset h
      rcases List.mem_cons.1 h with heq | h
      · obtain ⟨rfl, rfl⟩ := Prod.mk.inj heq
        exact ⟨[], ms, rfl, rfl, rfl⟩
      · obtain ⟨as, bs, rfl, hstart, hstop⟩ := ih h
        exact ⟨m :: as, bs, rfl, by
          rw [hstart, List.flatMap_cons, Text.size_append, Nat.add_assoc], hstop⟩

theorem tiles_placedFrom : ∀ {ns : List Node}, (∀ n ∈ ns, n.source ≠ []) → ∀ offset : Nat,
    Tiles offset ((placedFrom offset ns).map Prod.snd) (offset + Text.size (ns.flatMap source)) := by
  intro ns
  induction ns with
  | nil => intro _ offset; rfl
  | cons n ns ih =>
      intro hne offset
      have hsource : 0 < Text.size n.source := Text.size_pos (hne n (List.mem_cons_self ..))
      refine ⟨rfl, Nat.lt_add_of_pos_right hsource, ?_⟩
      rw [List.flatMap_cons, Text.size_append, ← Nat.add_assoc]
      exact ih (fun m hm => hne m (List.mem_cons_of_mem _ hm)) _

theorem slotMatchesFrom_eq (ns : List Node) : ∀ offset : Nat, slotMatchesFrom offset ns =
    (placedFrom offset ns).filterMap fun p =>
      p.1.slot?.map fun s => ⟨s, p.2.start, p.2.stop - p.2.start⟩ := by
  induction ns with
  | nil => intro offset; rfl
  | cons n ns ih =>
      intro offset
      cases n with
      | text t => simp [slotMatchesFrom, placedFrom, slot?, ih]
      | define d t => simp [slotMatchesFrom, placedFrom, slot?, ih]
      | slot s t => simp [slotMatchesFrom, placedFrom, slot?, source, ih]

theorem isChain_consText {ns : List Node} (ch : Char)
    (h : ns.IsChain fun m n => !(m.isText && n.isText)) :
    (consText ch ns).IsChain fun m n => !(m.isText && n.isText) := by
  cases ns with
  | nil => simp [consText]
  | cons n ns =>
      cases n with
      | text s => 
        cases ns with
        | nil => simp [consText]
        | cons m ms => simpa [consText, isText] using h
      | define d source => simpa [consText, isText] using h
      | slot s source => simpa [consText, isText] using h

/-- Text in front of nodes changes only the text before the first one that is not text. -/
theorem exists_of_consText_eq {ch : Char} {ns as bs : List Node} {n : Node} (hn : n.isText = false)
    (h : consText ch ns = as ++ n :: bs) :
    ∃ cs, ns = cs ++ n :: bs ∧ as.flatMap source = ch :: cs.flatMap source := by
  have hfirst : ∀ {s : Text} {ms : List Node}, .text s :: ms = as ++ n :: bs →
      ∃ cs, as = .text s :: cs ∧ ms = cs ++ n :: bs := by
    intro s ms h
    cases as with
    | nil =>
        obtain ⟨rfl, -⟩ := List.cons.inj h
        cases hn
    | cons a as =>
        obtain ⟨rfl, hms⟩ := List.cons.inj h
        exact ⟨as, rfl, hms⟩
  cases ns with
  | nil =>
      obtain ⟨cs, rfl, hnil⟩ := hfirst h
      exact absurd hnil (by simp)
  | cons m ms =>
      cases m with
      | text s =>
          obtain ⟨cs, rfl, rfl⟩ := hfirst h
          exact ⟨.text s :: cs, rfl, rfl⟩
      | define d source =>
          obtain ⟨cs, rfl, hms⟩ := hfirst h
          exact ⟨cs, hms, rfl⟩
      | slot s z =>
          obtain ⟨cs, rfl, hms⟩ := hfirst h
          exact ⟨cs, hms, rfl⟩

end Node

/-! ## Nodes where they were found -/

theorem Cursor.Reaches.eq_of_append {c next : Cursor} {z w : Text} (h : c.Reaches next)
    (hz : c.rest = z ++ next.rest) (hw : next.rest = w) : next = ⟨c.offset + Text.size z, w⟩ := by
  obtain ⟨passed, hpassed, hoffset⟩ := h
  obtain rfl : passed = z := List.append_cancel_right (hpassed.symm.trans hz)
  rw [← hoffset, ← hw]

theorem reaches_of_definition {c next : Cursor} {d : Definition} {source : DefinitionSource}
    (h : Node.definition c = .ok (d, source, next)) : c.Reaches next := by
  simp only [Node.definition] at h
  split at h
  · cases h
  next o mid ho =>
    have hmid := Reader.advances_opening.reaches ho
    split at h
    · simp only [Except.ok.injEq, Prod.mk.injEq] at h
      obtain ⟨-, -, rfl⟩ := h
      exact hmid.trans (reaches_skipLineBreak mid)
    · split at h
      · cases h
      next k taken hk =>
        simp only [Except.ok.injEq, Prod.mk.injEq] at h
        obtain ⟨-, -, rfl⟩ := h
        exact hmid.trans ((mid.reaches_advance _).trans (reaches_skipLineBreak _))

/-- A row of nodes that begins with a slot or a definition does not begin with text. -/
theorem Node.consText_ne {ch : Char} {ms ns : List Node} {n : Node} (hn : n.isText = false) :
    n :: ns ≠ consText ch ms := by
  intro h
  cases ms with
  | nil =>
      rw [(List.cons.inj h).1] at hn
      cases hn
  | cons m ms =>
      cases m <;> rw [(List.cons.inj h).1] at hn <;> cases hn

theorem Located.slot_inv {c : Cursor} {s : Slot} {z : Text} {ns : List Node}
    (h : Located c (.slot s z :: ns)) : SlotText z s ∧ lead c.rest = .slot ∧
      Reader.slot.run c = .ok (s, ⟨c.offset + Text.size z, ns.flatMap Node.source⟩) := by
  generalize hu : Node.slot s z :: ns = u at h
  cases h with
  | nil _ => cases hu
  | text _ _ _ => exact absurd hu (Node.consText_ne rfl)
  | @slot _ next _ ms hlead hslot hms =>
      obtain ⟨heq, rfl⟩ := List.cons.inj hu
      obtain ⟨rfl, rfl⟩ := Node.slot.inj heq
      obtain ⟨hz, hrest⟩ := slotText_of_run hlead hslot
      have hnext := (Reader.advances_slot.reaches hslot).eq_of_append hrest hms.flatMap_source.symm
      exact ⟨hz, hlead, by rw [← hnext]; exact hslot⟩
  | define _ _ _ => cases (List.cons.inj hu).1

theorem Located.define_inv {c : Cursor} {d : Definition} {source : DefinitionSource}
    {ns : List Node} (h : Located c (.define d source :: ns)) : lead c.rest = .opening ∧
      Node.definition c =
        .ok (d, source, ⟨c.offset + Text.size source.text, ns.flatMap Node.source⟩) := by
  generalize hu : Node.define d source :: ns = u at h
  cases h with
  | nil _ => cases hu
  | text _ _ _ => exact absurd hu (Node.consText_ne rfl)
  | slot _ _ _ => cases (List.cons.inj hu).1
  | @define _ next _ _ ms hlead hdef hms =>
      obtain ⟨heq, rfl⟩ := List.cons.inj hu
      obtain ⟨rfl, rfl⟩ := Node.define.inj heq
      have hnext := (reaches_of_definition hdef).eq_of_append (source_of_definition hdef).1
        hms.flatMap_source.symm
      exact ⟨hlead, by rw [← hnext]; exact hdef⟩

/-- A slot or a definition was found behind the sources of the nodes before it. -/
theorem Located.suffix {n : Node} {bs : List Node} (hn : n.isText = false) {c : Cursor}
    {ns : List Node} (h : Located c ns) : ∀ {as : List Node}, ns = as ++ n :: bs →
    Located ⟨c.offset + Text.size (as.flatMap Node.source), (n :: bs).flatMap Node.source⟩
      (n :: bs) := by
  -- a node that is read ends where the text behind it begins
  have hstep : ∀ {c next : Cursor} {m : Node} {ns as : List Node}, c.Reaches next →
      c.rest = m.source ++ next.rest → Located c (m :: ns) → m :: ns = as ++ n :: bs →
      (∀ {as : List Node}, ns = as ++ n :: bs → Located ⟨next.offset +
        Text.size (as.flatMap Node.source), (n :: bs).flatMap Node.source⟩ (n :: bs)) →
      Located ⟨c.offset + Text.size (as.flatMap Node.source), (n :: bs).flatMap Node.source⟩
        (n :: bs) := by
    intro c next m ns as hreach hrest h heq ih
    cases as with
    | nil =>
        rw [List.nil_append] at heq
        rw [← heq, h.flatMap_source]
        exact h
    | cons a as =>
        obtain ⟨rfl, rfl⟩ := List.cons.inj heq
        have hlater := ih rfl
        rw [hreach.eq_of_append hrest rfl, Nat.add_assoc] at hlater
        rw [List.flatMap_cons, Text.size_append]
        exact hlater
  induction h with
  | nil _ => intro as heq; exact absurd heq (by simp)
  | @text c ch rest ns hc _ _ ih =>
      intro as heq
      obtain ⟨cs, rfl, hcs⟩ := Node.exists_of_consText_eq hn heq
      have hlater := ih rfl
      simp only [Cursor.advance, hc, List.take_succ_cons, List.take_zero, Text.size_cons,
        Text.size_nil, Nat.add_zero, Nat.add_assoc] at hlater
      rw [hcs, Text.size_cons]
      exact hlater
  | @slot c next s ns hlead hslot hns ih =>
      intro as heq
      exact hstep (m := .slot s (c.upto next)) (Reader.advances_slot.reaches hslot)
        (slotText_of_run hlead hslot).2 (.slot hlead hslot hns) heq ih
  | @define c next d source ns hlead hdef hns ih =>
      intro as heq
      exact hstep (m := .define d source) (reaches_of_definition hdef) (source_of_definition hdef).1
        (.define hlead hdef hns) heq ih

/-- The opening tag of a definition has a brace, and so has the closing tag of a block. -/
theorem ne_nil_of_definition {c next : Cursor} {d : Definition} {source : DefinitionSource}
    (h : Node.definition c = .ok (d, source, next)) :
    source.opening ≠ [] ∧ (source.body ≠ none → source.closing ≠ []) := by
  have hends : ∀ {o : Opening} {mid : Cursor}, Reader.opening.run c = .ok (o, mid) →
      c.upto mid ≠ [] := by
    intro o mid ho
    obtain ⟨y, hy⟩ := upto_of_opening ho
    rw [hy]
    simp
  cases hbody : source.body with
  | none =>
      obtain ⟨o, mid, v, ho, -, -, hopening, -, -⟩ := single_of_definition h hbody
      rw [hopening]
      exact ⟨hends ho, fun hne => absurd rfl hne⟩
  | some body =>
      obtain ⟨o, mid, ps, z, r, ho, -, -, -, hopening, hclosing, -, -⟩ := block_of_definition h hbody
      rw [hopening, hclosing]
      exact ⟨hends ho, fun _ => by simp⟩

theorem Located.source_ne_nil {c : Cursor} {ns : List Node} (h : Located c ns) :
    ∀ n ∈ ns, n.source ≠ [] := by
  induction h with
  | nil _ => simp
  | @text c ch rest ns _ _ _ ih =>
      cases ns with
      | nil => simp [Node.consText, Node.source]
      | cons n ns =>
          cases n <;> simp_all [Node.consText, Node.source]
  | @slot c next s ns hlead hslot _ ih =>
      obtain ⟨u, hu⟩ := (slotText_of_run hlead hslot).1.exists_cons
      refine List.forall_mem_cons.2 ⟨?_, ih⟩
      rw [Node.source, hu]
      simp
  | @define c next d source ns _ hdef _ ih =>
      refine List.forall_mem_cons.2 ⟨?_, ih⟩
      simp [Node.source, DefinitionSource.text, (ne_nil_of_definition hdef).1]

theorem Located.chain {c : Cursor} {ns : List Node} (h : Located c ns) :
    ns.IsChain fun m n => !(m.isText && n.isText) := by
  induction h with
  | nil _ => simp
  | text _ _ _ ih => exact Node.isChain_consText _ ih
  | @slot c next s ns _ _ _ ih => 
      cases ns with
      | nil => simp
      | cons m ms => simpa [Node.isText] using ih
  | @define c next d source ns _ _ _ ih => 
      cases ns with
      | nil => simp
      | cons m ms => simpa [Node.isText] using ih

/-- The two braces at the start of a slot are not the two at its end. -/
theorem SlotText.exists_inside {z : Text} {s : Slot} (h : SlotText z s) :
    ∃ inside, z = ['{', '{'] ++ inside ++ ['}', '}'] := by
  obtain ⟨u, hu⟩ := h.exists_cons
  obtain ⟨y, hy⟩ := h.exists_append
  rw [hu] at hy
  match y with
  | [] => simp [Reader.slotEnd] at hy
  | [a] => simp [Reader.slotEnd] at hy
  | a :: b :: y =>
      simp only [List.cons_append, List.cons.injEq] at hy
      obtain ⟨-, -, rfl⟩ := hy
      exact ⟨y, by rw [hu]; rfl⟩

theorem slice_of_append {front part back : Text} {span : Span}
    (hstart : span.start = Text.size front) (hstop : span.stop = span.start + Text.size part) :
    Slice (front ++ (part ++ back)) span part := ⟨front, back, rfl, hstart, by rw [hstop, hstart]⟩

/-- The nodes of a template tile it. -/
theorem tiling_of_parse (t : Text) (ns : List Node) (h : parse t = .ok ns) : Tiling t ns := by
  have hlocated := located_of_parse h
  have hsource : ns.flatMap Node.source = t := hlocated.flatMap_source
  have htext : ∀ {as bs : List Node} {n : Node}, ns = as ++ n :: bs →
      t = as.flatMap Node.source ++ (n.source ++ bs.flatMap Node.source) := by
    intro as bs n hns
    rw [← hsource, hns, List.flatMap_append, List.flatMap_cons]
  have hfound : ∀ {as bs : List Node} {n : Node}, n.isText = false → ns = as ++ n :: bs →
      Located ⟨Text.size (as.flatMap Node.source), (n :: bs).flatMap Node.source⟩ (n :: bs) := by
    intro as bs n hn hns
    have hsuffix := hlocated.suffix hn hns
    rwa [Cursor.start, Nat.zero_add] at hsuffix
  refine ⟨?_, ?_, hlocated.chain, ?_, ?_, ?_⟩
  · have htiles := Node.tiles_placedFrom hlocated.source_ne_nil 0
    rwa [hsource, Nat.zero_add] at htiles
  · intro p hp
    obtain ⟨as, bs, hns, hstart, hstop⟩ := Node.exists_of_mem_placedFrom hp
    rw [htext hns]
    exact slice_of_append (by rw [hstart, Nat.zero_add]) hstop
  · intro s source span hmem
    obtain ⟨as, bs, hns, hstart, hstop⟩ := Node.exists_of_mem_placedFrom hmem
    rw [Nat.zero_add] at hstart
    obtain ⟨hz, -, hslot⟩ := (hfound rfl hns).slot_inv
    rw [← hstart] at hslot
    rw [hstop]
    exact ⟨hz.exists_inside, _, _, htext hns, hstart, hslot⟩
  · intro d source span hmem
    obtain ⟨as, bs, hns, hstart, hstop⟩ := Node.exists_of_mem_placedFrom hmem
    rw [Nat.zero_add] at hstart
    obtain ⟨-, hdef⟩ := (hfound rfl hns).define_inv
    obtain ⟨hopening, hclosing⟩ := ne_nil_of_definition hdef
    rw [← hstart] at hdef
    rw [hstop]
    refine ⟨⟨_, _, htext hns, hstart, hdef⟩, fun body hbody => ⟨?_, ?_, ?_⟩⟩
    · refine ⟨as.flatMap Node.source ++ source.opening,
        source.closing ++ bs.flatMap Node.source, ?_, ?_, ?_⟩
      · rw [htext hns, Node.source, DefinitionSource.text, hbody]
        simp
      · simp [DefinitionSource.bodySpan, hstart]
      · simp [DefinitionSource.bodySpan, hstart]
    · exact Nat.lt_add_of_pos_right (Text.size_pos hopening)
    · simp only [DefinitionSource.bodySpan, Node.source, DefinitionSource.text, hbody,
        Option.getD_some, Text.size_append]
      have hpos := Text.size_pos (hclosing (by simp [hbody]))
      omega
  · rw [slotMatches, h, ← Node.slotMatchesFrom_eq]
    rfl

def tiledText : Text := bracketed "[x(a=\"é\")]\r\né[[a]]\n[/x]\r\n[[[x]]][n = 1]"

def tiledNodes : List Node :=
  [.define { name := ['x'], optional := [(['a'], .text ['é'])], content := bracketed "é[[a]]" }
      ⟨bracketed "[x(a=\"é\")]", some (bracketed "\r\né[[a]]\n"), bracketed "[/x]\r\n"⟩,
    .text ['{'], .slot ⟨['x'], [], false, none⟩ (bracketed "[[x]]"), .text ['}'],
    .define { name := ['n'], content := ['1'] } ⟨bracketed "[n = 1]", none, []⟩]

theorem tiling_tiledText : parse tiledText = .ok tiledNodes ∧ Tiling tiledText tiledNodes ∧
    (Node.placedFrom 0 tiledNodes).map Prod.snd =
      [⟨0, 27⟩, ⟨27, 28⟩, ⟨28, 33⟩, ⟨33, 34⟩, ⟨34, 41⟩] := by
  have hparse : parse tiledText = .ok tiledNodes := by decide +kernel
  exact ⟨hparse, tiling_of_parse tiledText tiledNodes hparse, by decide +kernel⟩

end Stencil
