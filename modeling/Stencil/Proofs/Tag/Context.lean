import Stencil.Proofs.Tag.Recognized

/-! # Reading before other text

How a reading changes with its context: text at the front comes off (`exists_of_reads_cons`), a line
break behind a definition becomes part of it (`exists_reads_define`), and what is read at the end of a text is
read so before a closing tag, unless a brace stands there (`reads_before_brace`). -/
set_option autoImplicit false
namespace Stencil

/-- A slot or a definition, without its place in the text. -/
inductive Inside where
  | slot (s : Slot)
  | define (d : Definition) (body : Option Text)
deriving DecidableEq

def insides : List Node → List Inside
  | [] => []
  | .text _ :: ns => insides ns
  | .slot s _ :: ns => .slot s :: insides ns
  | .define d source :: ns => .define d source.body :: insides ns

@[simp] theorem insides_consText (ch : Char) (ns : List Node) :
    insides (Node.consText ch ns) = insides ns := by
  cases ns with
  | nil => rfl
  | cons n ns => cases n <;> rfl

/-! ## The first and the last character of a tag -/

theorem SlotText.exists_cons {z : Text} {s : Slot} (h : SlotText z s) :
    ∃ u, z = '{' :: '{' :: u := by
  have hlead := h.1 []
  rw [List.append_nil] at hlead
  obtain ⟨u, hu, -⟩ := exists_of_lead_slot hlead
  exact ⟨u, hu⟩

theorem SlotText.exists_append {z : Text} {s : Slot} (h : SlotText z s) :
    ∃ y, z = y ++ Reader.slotEnd := by
  obtain ⟨y, hy⟩ := Reader.finishes_slot.finishes (h.2 [] 0)
  simp only [List.append_nil] at hy
  exact ⟨y, hy⟩

theorem DefinitionText.exists_cons {opening closing : Text} {body : Option Text} {d : Definition}
    (h : DefinitionText opening body closing d) : ∃ c u, opening = '{' :: c :: u := by
  have hlead := h.1 []
  rw [List.append_nil] at hlead
  obtain ⟨u, rfl⟩ := exists_cons_of_lead (t := opening) (by rw [hlead]; decide)
  cases u with
  | nil => cases hlead
  | cons c u => exact ⟨c, u, rfl⟩

theorem DefinitionText.getLast?_ne {opening closing : Text} {body : Option Text} {d : Definition}
    (h : DefinitionText opening body closing d) :
    (opening ++ (body.getD [] ++ closing)).getLast? ≠ some '{' := by
  have hsource := (source_of_definition (h.2 0 [])).2
  intro hlast
  rcases hsource '{' (by simpa [DefinitionSource.text, lineBreak] using hlast) with hc | hc <;>
    exact absurd hc (by decide)

/-! ## The front of a reading -/

theorem exists_of_reads_cons {r t : Text} {ch : Char} {ns : List Node} (hch : ch ≠ '{')
    (h : Reads r (ch :: t) ns) : ∃ ms, ns = Node.consText ch ms ∧ Reads r t ms := by
  generalize hu : ch :: t = u at h
  cases h with
  | nil => cases hu
  | @text ch' t' ms hlead hms =>
      obtain ⟨rfl, rfl⟩ := List.cons.inj hu
      exact ⟨ms, rfl, hms⟩
  | @slot z t' s ms hz hms =>
      obtain ⟨v, rfl⟩ := hz.exists_cons
      exact absurd (List.cons.inj hu).1 hch
  | @define opening closing br t' body d ms hd hbr hms =>
      obtain ⟨c, v, rfl⟩ := hd.exists_cons
      exact absurd (List.cons.inj hu).1 hch

/-- Text without braces in front of a reading. -/
theorem exists_reads_append {r t : Text} {ns : List Node} (h : Reads r t ns) : ∀ {v : Text},
    '{' ∉ v → ∃ ms, Reads r (v ++ t) ms ∧ insides ms = insides ns := by
  intro v
  induction v with
  | nil => intro _; exact ⟨ns, h, rfl⟩
  | cons c v ih =>
      intro hv
      rw [List.mem_cons, not_or] at hv
      obtain ⟨ms, hms, heq⟩ := ih hv.2
      exact ⟨Node.consText c ms, .text (lead_of_ne (Ne.symm hv.1) _) hms, by simp [heq]⟩

theorem exists_of_reads_append {r t : Text} : ∀ {v : Text} {ns : List Node}, '{' ∉ v →
    Reads r (v ++ t) ns → ∃ ms, Reads r t ms ∧ insides ms = insides ns := by
  intro v
  induction v with
  | nil => intro ns _ h; exact ⟨ns, h, rfl⟩
  | cons c v ih =>
      intro ns hv h
      rw [List.mem_cons, not_or] at hv
      obtain ⟨ms, rfl, hms⟩ := exists_of_reads_cons (Ne.symm hv.1) h
      obtain ⟨ks, hks, heq⟩ := ih hv.2 hms
      exact ⟨ks, hks, by simp [heq]⟩

/-! ## Line breaks behind definitions -/

def IsBreak (br : Text) : Prop := br = [] ∨ br = ['\n'] ∨ br = ['\r', '\n']

theorem isBreak_lineBreak (w : Text) : IsBreak (lineBreak w) := by
  unfold lineBreak
  split
  · exact .inr (.inl rfl)
  · exact .inr (.inr rfl)
  · exact .inl rfl

theorem IsBreak.not_mem {br : Text} (h : IsBreak br) : '{' ∉ br := by
  rcases h with rfl | rfl | rfl <;> simp

/-- Content is its body without a line break at the start and one at the end. -/
theorem exists_break_append (t : Text) : ∃ a, IsBreak a ∧ t = a ++ (match t with
    | '\r' :: '\n' :: rest => rest
    | '\n' :: rest => rest
    | t => t) := by
  split
  · exact ⟨['\r', '\n'], .inr (.inr rfl), rfl⟩
  · exact ⟨['\n'], .inr (.inl rfl), rfl⟩
  · exact ⟨[], .inl rfl, rfl⟩

theorem exists_append_break (t : Text) : ∃ b, IsBreak b ∧ t = (match t.reverse with
    | '\n' :: '\r' :: rest => rest.reverse
    | '\n' :: rest => rest.reverse
    | _ => t) ++ b := by
  split
  next rest hrest =>
    refine ⟨['\r', '\n'], .inr (.inr rfl), ?_⟩
    rw [← List.reverse_reverse t, hrest]
    simp
  next rest _ hrest =>
    refine ⟨['\n'], .inr (.inl rfl), ?_⟩
    rw [← List.reverse_reverse t, hrest]
    simp
  · exact ⟨[], .inl rfl, (List.append_nil t).symm⟩

theorem exists_trimLineBreaks (t : Text) :
    ∃ a b, IsBreak a ∧ IsBreak b ∧ t = a ++ (trimLineBreaks t ++ b) := by
  obtain ⟨a, ha, hta⟩ := exists_break_append t
  obtain ⟨b, hb, htb⟩ := exists_append_break _
  exact ⟨a, b, ha, hb, hta.trans (congrArg (a ++ ·) htb)⟩

/-- A definition in front of a reading takes a line break that comes there. -/
theorem exists_reads_define {opening closing br t : Text} {body : Option Text} {d : Definition}
    {ns : List Node} (hd : DefinitionText opening body closing d) (hbr : IsBreak br)
    (h : Reads [] t ns) : ∃ ms, Reads [] (opening ++ (body.getD [] ++ (closing ++ (br ++ t)))) ms ∧
      insides ms = .define d body :: insides ns := by
  have hgo : ∀ (b u : Text) (ms : List Node), br ++ t = b ++ u → lineBreak (b ++ u) = b →
      Reads [] u ms → insides ms = insides ns →
      ∃ ms, Reads [] (opening ++ (body.getD [] ++ (closing ++ (br ++ t)))) ms ∧
        insides ms = .define d body :: insides ns := by
    intro b u ms htext hbreak hms heq
    rw [htext]
    refine ⟨_, .define hd (by rw [List.append_nil]; exact hbreak) hms, ?_⟩
    rw [insides, heq]
  rcases hbr with rfl | rfl | rfl
  · obtain ⟨hsplit, -⟩ := lineBreak_append_skipLineBreak 0 t
    rw [hsplit] at h
    obtain ⟨ms, hms, heq⟩ := exists_of_reads_append (isBreak_lineBreak t).not_mem h
    exact hgo _ _ ms hsplit (by rw [← hsplit]) hms heq
  · exact hgo ['\n'] t ns rfl rfl h rfl
  · exact hgo ['\r', '\n'] t ns rfl rfl h rfl

/-! ## Before a closing tag -/

theorem lineBreak_append {w : Text} (hw : w.head? = some '{') (t : Text) :
    lineBreak (t ++ w) = lineBreak t := by
  obtain ⟨u, rfl⟩ := List.head?_eq_some_iff.1 hw
  cases t with
  | nil => rfl
  | cons c t =>
      by_cases hc : c = '\n'
      · subst hc; rfl
      · by_cases hr : c = '\r'
        · subst hr
          cases t with
          | nil => rfl
          | cons d t =>
              by_cases hd : d = '\n'
              · subst hd; rfl
              · simp [lineBreak, hd]
        · simp [lineBreak, hc, hr]

theorem getLast?_ne_of_append {s t : Text} {c : Char} (h : (s ++ t).getLast? ≠ some c) :
    t.getLast? ≠ some c := by
  intro ht
  rw [List.getLast?_append, ht] at h
  exact h rfl

/-- What a brace that stays text begins at the end of a text, it begins before another brace. -/
theorem lead_brace_append {w t : Text} (hw : w.head? = some '{') (ht : t ≠ [])
    (h : lead ('{' :: t) = .text) : lead ('{' :: (t ++ w)) = .text := by
  obtain ⟨c, t, rfl⟩ := List.exists_cons_of_ne_nil ht
  obtain ⟨u, rfl⟩ := List.head?_eq_some_iff.1 hw
  rw [lead_brace] at h ⊢
  by_cases hc : c = '{'
  · subst hc
    by_cases htwo : ('{' :: t).take 2 = ['{', '{']
    · obtain ⟨t, rfl⟩ : ∃ v, t = '{' :: v := by
        cases t with
        | nil => simp at htwo
        | cons d t => exact ⟨t, by simpa using htwo⟩
      rw [if_pos (by simp)]
    · rw [if_neg htwo, if_pos (List.head?_cons ..)] at h
      cases h
  · rw [if_neg (by simp [hc]), if_neg (by simpa using hc)] at h ⊢
    cases hdrop : (c :: t).dropWhile isLineBlank with
    | nil =>
        have htaken : c :: t = (c :: t).takeWhile isLineBlank := by
          have hsplit := List.takeWhile_append_dropWhile (p := isLineBlank) (l := c :: t)
          rw [hdrop, List.append_nil] at hsplit
          exact hsplit.symm
        have hall : ∀ e ∈ c :: t, isLineBlank e = true := by
          rw [htaken]
          exact Reader.eq_true_of_mem_takeWhile
        rw [List.dropWhile_append_of_pos hall, List.dropWhile_cons_of_neg (by decide)]
        rfl
    | cons e v =>
        rw [List.dropWhile_append, hdrop]
        rw [hdrop] at h
        simpa using h

theorem reads_before_brace {t : Text} {ns : List Node} (h : Reads [] t ns) : ∀ {w : Text},
    w.head? = some '{' → t.getLast? ≠ some '{' → Reads w t ns := by
  induction h with
  | nil => intro w _ _; exact .nil
  | @text ch t ns hlead _ ih =>
      intro w hw hlast
      have hrest : t.getLast? ≠ some '{' := by
        cases t with
        | nil => simp
        | cons c t => rwa [List.getLast?_cons_cons] at hlast
      refine .text ?_ (ih hw hrest)
      by_cases hch : ch = '{'
      · subst hch
        rw [List.append_nil] at hlead
        refine lead_brace_append hw ?_ hlead
        rintro rfl
        exact hlast rfl
      · exact lead_of_ne hch _
  | @slot z t s ns hz _ ih =>
      intro w hw hlast
      exact .slot hz (ih hw (getLast?_ne_of_append hlast))
  | @define opening closing br t body d ns hd hbr _ ih =>
      intro w hw hlast
      rw [List.append_nil] at hbr
      refine .define hd ?_ (ih hw ?_)
      · rw [← List.append_assoc, lineBreak_append hw]
        exact hbr
      · simp only [← List.append_assoc] at hlast
        exact getLast?_ne_of_append hlast

theorem SlotText.getLast?_ne {z : Text} {s : Slot} (h : SlotText z s) : z.getLast? ≠ some '{' := by
  obtain ⟨y, rfl⟩ := h.exists_append
  simp [Reader.slotEnd]

theorem lead_brace_of_closing {u : Text} (hu : lead ('{' :: u) = .closing) :
    lead ('{' :: '{' :: u) = .slot := by
  rw [lead_brace] at hu ⊢
  have htwo : ('{' :: u).take 2 ≠ ['{', '{'] := by
    intro heq
    cases u with
    | nil => cases heq
    | cons c u =>
        obtain rfl : c = '{' := by simpa using heq
        by_cases hu' : ('{' :: u).take 2 = ['{', '{']
        · rw [if_pos hu'] at hu
          cases hu
        · rw [if_neg hu', if_pos (List.head?_cons ..)] at hu
          cases hu
  rw [if_neg htwo, if_pos (List.head?_cons ..)]

/-- A brace in front of a closing tag begins a slot, so that no scan ends behind it. -/
theorem scan_brace_ne {w : Text} (hw : lead w = .closing) (name : Text) (o after : Nat) :
    scan (some name) ⟨o, '{' :: w⟩ ≠ .ok ⟨w.length, after⟩ := by
  intro h
  obtain ⟨u, rfl⟩ := exists_cons_of_lead (t := w) (by rw [hw]; decide)
  have hlead : lead ('{' :: '{' :: u) = .slot := lead_brace_of_closing hw
  cases hslot : Reader.slot.run ⟨o, '{' :: '{' :: u⟩ with
  | error e =>
      rw [scan.eq_def] at h
      simp only [hlead] at h
      split at h
      · cases h
      next hs => rw [hslot] at hs; cases hs
  | ok r =>
      obtain ⟨s, next⟩ := r
      rw [scan_slot hlead hslot] at h
      obtain ⟨tag, last, slash, hreach, -, hleft, -⟩ := exists_of_scan rfl h
      have hle := hreach.length_le
      have hlength := Reader.length_slot hslot
      simp only [List.length_cons] at hleft hlength
      omega

/-- Content that is read does not end with a brace before its closing tag. -/
theorem getLast?_ne_of_scan {name w : Text} {after : Nat} (hw : lead w = .closing) {t : Text}
    {ns : List Node} (h : Reads [] t ns) : ∀ {o : Nat},
    scan (some name) ⟨o, t ++ w⟩ = .ok ⟨w.length, after⟩ → t.getLast? ≠ some '{' := by
  have hhead : w.head? = some '{' := head?_of_closing hw
  induction h with
  | nil => intro o _; simp
  | @text ch t ns hlead _ ih =>
      intro o hscan
      have hnext : Cursor.advance ⟨o, ch :: (t ++ w)⟩ 1 = ⟨o + ch.utf8Size, t ++ w⟩ := by
        simp [Cursor.advance]
      rw [List.append_nil] at hlead
      rw [List.cons_append] at hscan
      by_cases hch : ch = '{'
      · subst hch
        by_cases ht : t = []
        · subst ht
          exact absurd hscan (scan_brace_ne hw name o after)
        · rw [scan_text (c := ⟨o, '{' :: (t ++ w)⟩) rfl (lead_brace_append hhead ht hlead),
            hnext] at hscan
          obtain ⟨c, u, rfl⟩ := List.exists_cons_of_ne_nil ht
          rw [List.getLast?_cons_cons]
          exact ih hscan
      · rw [scan_text (c := ⟨o, ch :: (t ++ w)⟩) rfl (lead_of_ne hch _), hnext] at hscan
        exact getLast?_append_ne (s := [ch]) (ih hscan) fun _ => by simpa using hch
  | @slot z t s ns hz _ ih =>
      intro o hscan
      rw [List.append_assoc, scan_slot (hz.1 _) (hz.2 _ o)] at hscan
      exact getLast?_append_ne (ih hscan) fun _ => hz.getLast?_ne
  | @define opening closing br t body d ns hd hbr _ ih =>
      intro o hscan
      rw [List.append_nil] at hbr
      have hbreak : lineBreak (br ++ (t ++ w)) = br := by
        rw [← List.append_assoc, lineBreak_append hhead]
        exact hbr
      have hdef := hd.2 o (br ++ (t ++ w))
      rw [hbreak, skipLineBreak_of_lineBreak hbreak] at hdef
      have htext : opening ++ (body.getD [] ++ (closing ++ (br ++ t))) ++ w =
          opening ++ (body.getD [] ++ (closing ++ (br ++ (t ++ w)))) := by simp
      rw [htext, scan_opening (hd.1 _) hdef] at hscan
      have hlast : (opening ++ (body.getD [] ++ closing)).getLast? ≠ some '{' := hd.getLast?_ne
      have hall : opening ++ (body.getD [] ++ (closing ++ (br ++ t))) =
          (opening ++ (body.getD [] ++ closing)) ++ br ++ t := by simp
      rw [hall]
      refine getLast?_append_ne (ih hscan) fun _ => getLast?_append_ne ?_ fun _ => hlast
      rw [← hbr]
      exact fun hopen => absurd (getLast?_lineBreak _ _ hopen) (by decide)

end Stencil
