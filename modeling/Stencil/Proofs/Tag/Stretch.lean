import Stencil.Proofs.Tag.Context
import Stencil.Proofs.Tag.Located

/-! # Stretches of a text

`Stretch c last ns` follows the nodes that are read from one position up to a later one. Every scan that
succeeds goes over a stretch, up to the end of the text or up to the closing tag that it looks for
(`exists_stretch_of_scan`). If the blocks in it are read by themselves then the stretch is read in the same
way before any text that begins alike (`reads_of_stretch`). -/
set_option autoImplicit false
namespace Stencil

inductive Stretch : Cursor → Cursor → List Node → Prop
  | nil {c : Cursor} : Stretch c c []
  | text {c last : Cursor} {ch : Char} {rest : Text} {ns : List Node} :
      c.rest = ch :: rest → lead c.rest = .text → Stretch (c.advance 1) last ns →
      Stretch c last (Node.consText ch ns)
  | slot {c next last : Cursor} {s : Slot} {ns : List Node} :
      lead c.rest = .slot → Reader.slot.run c = .ok (s, next) → Stretch next last ns →
      Stretch c last (.slot s (c.upto next) :: ns)
  | define {c next last : Cursor} {d : Definition} {source : DefinitionSource} {ns : List Node} :
      lead c.rest = .opening → Node.definition c = .ok (d, source, next) → Stretch next last ns →
      Stretch c last (.define d source :: ns)

theorem Located.stretch {c : Cursor} {ns : List Node} (h : Located c ns) :
    ∃ last, last.rest = [] ∧ Stretch c last ns := by
  induction h with
  | @nil c hc => exact ⟨c, hc, .nil⟩
  | text hc hlead _ ih => exact ih.imp fun _ h => ⟨h.1, .text hc hlead h.2⟩
  | slot hlead hslot _ ih => exact ih.imp fun _ h => ⟨h.1, .slot hlead hslot h.2⟩
  | define hlead hdef _ ih => exact ih.imp fun _ h => ⟨h.1, .define hlead hdef h.2⟩

/-! ## Scans go over stretches -/

theorem Stretch.scan_eq {c last : Cursor} {ns : List Node} (h : Stretch c last ns)
    (opened : Option Text) : scan opened c = scan opened last := by
  induction h with
  | nil => rfl
  | text hc hlead _ ih => rw [scan_text hc hlead, ih]
  | slot hlead hslot _ ih => rw [scan_slot hlead hslot, ih]
  | define hlead hdef _ ih => rw [scan_opening hlead hdef, ih]

theorem Stretch.from?_eq {c last : Cursor} {ns : List Node} (h : Stretch c last ns)
    (hlast : last.rest = []) : Node.from? c = .ok ns := by
  induction h with
  | @nil c =>
      obtain ⟨o, rest⟩ := c
      obtain rfl : rest = [] := hlast
      exact Node.from?_nil o
  | text hc hlead _ ih => exact Node.from?_text hc hlead (ih hlast)
  | slot hlead hslot _ ih => exact Node.from?_slot hlead hslot (ih hlast)
  | define hlead hdef _ ih => exact Node.from?_opening hlead hdef (ih hlast)

/-- A scan that succeeds ends at the end of the text or at the closing tag of the open definition. -/
theorem exists_stretch_of_scan {opened : Option Text} {c : Cursor} : ∀ {k : Closing},
    scan opened c = .ok k → ∃ last ns, Stretch c last ns ∧ (opened = none → last.rest = []) ∧
      (opened ≠ none → lead last.rest = .closing ∧ last.rest.length = k.left) := by
  fun_induction scan opened c with
  | case1 c hc => intro k _; exact ⟨c, [], .nil, fun _ => hc, fun hne => absurd rfl hne⟩
  | case2 => intro k h; cases h
  | case3 opened c ch rest hc hlead ih =>
      intro k h
      obtain ⟨last, ns, hns, hend⟩ := ih h
      exact ⟨last, _, .text hc hlead hns, hend⟩
  | case4 => intro k h; cases h
  | case5 opened c ch rest hc hlead s next hs ih =>
      intro k h
      obtain ⟨last, ns, hns, hend⟩ := ih h
      exact ⟨last, _, .slot hlead hs hns, hend⟩
  | case6 => intro k h; cases h
  | case7 => intro k h; cases h
  | case8 c ch rest hc hlead slash next name hs =>
      intro k h
      obtain rfl := Except.ok.inj h
      exact ⟨c, [], .nil, by simp, fun _ => ⟨hlead, rfl⟩⟩
  | case9 => intro k h; cases h
  | case10 => intro k h; cases h
  | case11 opened c ch rest hc hlead o next ho v hv ih =>
      intro k h
      obtain ⟨last, ns, hns, hend⟩ := ih h
      have hdef : Node.definition c = .ok (Node.singleDefinition o v,
          ⟨c.upto next, none, next.upto (skipLineBreak next)⟩, skipLineBreak next) := by
        simp [Node.definition, ho, hv]
      exact ⟨last, _, .define hlead hdef hns, hend⟩
  | case12 => intro k h; cases h
  | case13 opened c ch rest hc hlead o next ho ps hps j taken hj _ ih =>
      intro k h
      obtain ⟨last, ns, hns, hend⟩ := ih h
      obtain ⟨d, source, hdef⟩ : ∃ d source, Node.definition c =
          .ok (d, source, skipLineBreak (next.skipTo j.after)) := by
        simp [Node.definition, ho, hps, hj]
      exact ⟨last, _, .define hlead hdef hns, hend⟩

/-- A text is a template if it has nodes. -/
theorem isTemplate_iff (t : Text) : isTemplate t = true ↔ ∃ ns, parse t = .ok ns := by
  have hscan : isTemplate t = true ↔ ∃ k, scan none (Cursor.start t) = .ok k := by
    unfold isTemplate
    cases scan none (Cursor.start t) <;> simp
  rw [hscan]
  constructor
  · rintro ⟨k, hk⟩
    obtain ⟨last, ns, hns, hlast, -⟩ := exists_stretch_of_scan hk
    exact ⟨ns, by rw [parse, hns.from?_eq (hlast rfl)]; rfl⟩
  · rintro ⟨ns, hns⟩
    obtain ⟨⟨o, rest⟩, hlast, hstretch⟩ := (located_of_parse hns).stretch
    obtain rfl : rest = [] := hlast
    exact ⟨⟨0, 0⟩, by rw [hstretch.scan_eq, scan.eq_def]⟩

/-! ## How far a text is read -/

/-- The nodes from a cursor up to the end of the text, to a closing tag, or to where reading fails. -/
def Node.reached (c : Cursor) : List Node :=
  match _hc : c.rest with
  | [] => []
  | ch :: _ =>
    match lead c.rest with
    | .text => consText ch (reached (c.advance 1))
    | .slot =>
      match _h : Reader.slot.run c with
      | .error _ => []
      | .ok (s, next) => .slot s (c.upto next) :: reached next
    | .closing => []
    | .opening =>
      match _h : definition c with
      | .error _ => []
      | .ok (d, source, next) => .define d source :: reached next
termination_by c.rest.length
decreasing_by
  · simp [Cursor.advance, _hc]
  · have := Reader.length_slot _h
    rw [_hc, List.length_cons] at this
    simp only [_hc, List.length_cons]
    omega
  · have := length_definition _h
    rw [_hc, List.length_cons] at this
    simp only [_hc, List.length_cons]
    omega

theorem Node.reached_text {c : Cursor} {ch : Char} {rest : Text} (hc : c.rest = ch :: rest)
    (h : lead c.rest = .text) : reached c = consText ch (reached (c.advance 1)) := by
  rw [reached.eq_def]
  split
  next hnil => rw [hc] at hnil; cases hnil
  next ch' rest' hc' =>
    obtain ⟨rfl, rfl⟩ := List.cons.inj (hc.symm.trans hc')
    simp only [h]

theorem Node.reached_slot {c next : Cursor} {s : Slot} (h : lead c.rest = .slot)
    (hs : Reader.slot.run c = .ok (s, next)) :
    reached c = .slot s (c.upto next) :: reached next := by
  obtain ⟨ch, rest, hc⟩ := ne_nil_of_lead (t := c.rest) (by rw [h]; decide)
  rw [reached.eq_def]
  split
  next hnil => rw [hc] at hnil; cases hnil
  next =>
    simp only [h]
    split
    next e he => rw [hs] at he; cases he
    next s' next' hs' =>
      obtain ⟨rfl, rfl⟩ := Prod.mk.inj (Except.ok.inj (hs.symm.trans hs'))
      rfl

theorem Node.reached_opening {c next : Cursor} {d : Definition} {source : DefinitionSource}
    (h : lead c.rest = .opening) (hd : definition c = .ok (d, source, next)) :
    reached c = .define d source :: reached next := by
  obtain ⟨ch, rest, hc⟩ := ne_nil_of_lead (t := c.rest) (by rw [h]; decide)
  rw [reached.eq_def]
  split
  next hnil => rw [hc] at hnil; cases hnil
  next =>
    simp only [h]
    split
    next e he => rw [hd] at he; cases he
    next d' source' next' hd' =>
      obtain ⟨rfl, rfl, rfl⟩ : d = d' ∧ source = source' ∧ next = next' := by
        simpa using hd.symm.trans hd'
      rfl

theorem Stretch.define_mem_reached {c last : Cursor} {ns : List Node} {d : Definition}
    {source : DefinitionSource} (h : Stretch c last ns) :
    .define d source ∈ ns → .define d source ∈ Node.reached c := by
  induction h with
  | nil => intro hd; exact absurd hd (by simp)
  | text hc hlead _ ih =>
      intro hd
      rw [Node.reached_text hc hlead]
      exact Node.define_mem_consText.2 (ih (Node.define_mem_consText.1 hd))
  | slot hlead hslot _ ih =>
      intro hd
      rw [Node.reached_slot hlead hslot]
      exact List.mem_cons_of_mem _ (ih (by simpa using hd))
  | define hlead hdef _ ih =>
      intro hd
      rw [Node.reached_opening hlead hdef]
      rcases List.mem_cons.1 hd with heq | hd
      · rw [heq]
        exact List.mem_cons_self ..
      · exact List.mem_cons_of_mem _ (ih hd)

theorem Node.exists_of_mem_reached {d : Definition} {source : DefinitionSource} (c : Cursor) :
    .define d source ∈ reached c → ∃ c₁ next, lead c₁.rest = .opening ∧
      definition c₁ = .ok (d, source, next) := by
  fun_induction reached c with
  | case1 => intro h; exact absurd h (by simp)
  | case2 c ch rest hc hlead ih => intro h; exact ih (define_mem_consText.1 h)
  | case3 => intro h; exact absurd h (by simp)
  | case4 c ch rest hc hlead s next hs ih => intro h; exact ih (by simpa using h)
  | case5 => intro h; exact absurd h (by simp)
  | case6 => intro h; exact absurd h (by simp)
  | case7 c ch rest hc hlead e z next hdef ih =>
      intro h
      rcases List.mem_cons.1 h with heq | h
      · obtain ⟨rfl, rfl⟩ := Node.define.inj heq
        exact ⟨c, next, hlead, hdef⟩
      · exact ih h

/-! ## Reading a stretch before other text -/

/-- The definition is read by itself, whatever comes behind it. -/
def Settled (d : Definition) (source : DefinitionSource) : Prop :=
  ∃ closing br, source.closing = closing ++ br ∧ DefinitionText source.opening source.body closing d

theorem lineBreak_of_definition {c next : Cursor} {d : Definition} {source : DefinitionSource}
    {closing br : Text} (hdef : Node.definition c = .ok (d, source, next))
    (hclosing : source.closing = closing ++ br)
    (htext : DefinitionText source.opening source.body closing d) :
    lineBreak (br ++ next.rest) = br := by
  have hrest := (source_of_definition hdef).1
  simp only [DefinitionSource.text, hclosing, List.append_assoc] at hrest
  have hcursor : c = ⟨c.offset, source.opening ++
      (source.body.getD [] ++ (closing ++ (br ++ next.rest)))⟩ := by
    rw [← hrest]
  have hsame := htext.2 c.offset (br ++ next.rest)
  rw [← hcursor, hdef] at hsame
  have hsource : source = ⟨source.opening, source.body, closing ++ lineBreak (br ++ next.rest)⟩ := by
    simp only [Except.ok.injEq, Prod.mk.injEq] at hsame
    exact hsame.2.1
  rw [hsource] at hclosing
  exact List.append_cancel_left hclosing

/-- A block with other content that is read. -/
theorem definitionText_of_reads {opening closing content : Text} {o : Opening} {ps : Params}
    {ns : List Node} (ho : OpeningText opening o) (hform : o.form = .block ps)
    (hclosing : ClosingText closing o.name) (hcontent : Reads [] content ns)
    (hlast : content.getLast? ≠ some '{') :
    DefinitionText opening (some content) closing
      { name := o.name, required := ps.required, optional := ps.optional,
        content := trimLineBreaks content, raw := o.raw } := by
  exact definitionText_block ho hform
    (fun w => reads_before_brace hcontent (head?_of_closing (hclosing.1 w)) hlast) hclosing

theorem settled_of_reads {c next : Cursor} {d : Definition} {source : DefinitionSource} {body : Text}
    {ms : List Node} (hlead : lead c.rest = .opening)
    (hdef : Node.definition c = .ok (d, source, next)) (hbody : source.body = some body)
    (hraw : d.raw = false) (hms : Reads [] body ms) : Settled d source := by
  obtain ⟨closing, br, o, ps, offset, ho, hform, hclose, hclosing, hbreak, hrest, rfl, hscan⟩ :=
    exists_of_definition_block hlead hdef hbody hraw
  have hlast := getLast?_ne_of_scan (hclose.1 (br ++ next.rest)) hms hscan
  refine ⟨closing, br, hclosing, ?_⟩
  rw [hbody]
  exact definitionText_of_reads ho hform hclose hms hlast

theorem settled_single {c next : Cursor} {d : Definition} {source : DefinitionSource}
    (hlead : lead c.rest = .opening) (hdef : Node.definition c = .ok (d, source, next))
    (hbody : source.body = none) : Settled d source := by
  obtain ⟨htext, -, -⟩ := exists_of_definition_single hlead hdef hbody
  refine ⟨[], source.closing, rfl, ?_⟩
  rw [hbody]
  exact htext

/-- A stretch in which all blocks are read by themselves is a reading of the text between its ends. -/
theorem reads_of_stretch {c last : Cursor} {ns : List Node} (h : Stretch c last ns) :
    (∀ d source, .define d source ∈ ns → source.body ≠ none → Settled d source) →
    ∃ t, c.rest = t ++ last.rest ∧ Reads last.rest t ns := by
  induction h with
  | nil => intro _; exact ⟨[], rfl, .nil⟩
  | @text c last ch rest ns hc hlead _ ih =>
      intro hsettled
      simp only [Node.define_mem_consText] at hsettled
      obtain ⟨t, ht, hreads⟩ := ih hsettled
      have hrest : rest = t ++ last.rest := by simpa [Cursor.advance, hc] using ht
      rw [hrest] at hc
      refine ⟨ch :: t, hc, .text ?_ hreads⟩
      rw [← hc]
      exact hlead
  | @slot c next last s ns hlead hslot _ ih =>
      intro hsettled
      obtain ⟨t, ht, hreads⟩ := ih fun d source hd => hsettled d source (List.mem_cons_of_mem _ hd)
      obtain ⟨hz, hrest⟩ := slotText_of_run hlead hslot
      exact ⟨c.upto next ++ t, by rw [hrest, ht, List.append_assoc], .slot hz hreads⟩
  | @define c next last d source ns hlead hdef _ ih =>
      intro hsettled
      obtain ⟨t, ht, hreads⟩ := ih fun d source hd => hsettled d source (List.mem_cons_of_mem _ hd)
      obtain ⟨closing, br, hclosing, htext⟩ : Settled d source := by
        cases hbody : source.body with
        | none => exact settled_single hlead hdef hbody
        | some body => exact hsettled d source (List.mem_cons_self ..) (by simp [hbody])
      have hbreak := lineBreak_of_definition hdef hclosing htext
      have hrest := (source_of_definition hdef).1
      have hnode := Reads.define htext (by rw [← ht]; exact hbreak) hreads
      rw [← hclosing] at hnode
      refine ⟨_, ?_, hnode⟩
      rw [hrest, DefinitionSource.text, hclosing, ht]
      simp only [List.append_assoc]

end Stencil
