import Stencil.Proofs.Tag.Parts

/-! # The body of a block

The body of a block stands before a closing tag, and its content is kept without a line break at each end.
Where the body is read up to the closing tag it does not end with a brace (`getLast?_ne_of_reads`), and
without such a brace it is read in the same way before the closing tag and alone (`reads_of_before_brace`);
so it is with the content (`exists_reads_trimLineBreaks`). A closing tag that is found by its characters alone
is one that is read (`closingText_of_findClosing?`). -/
set_option autoImplicit false
namespace Stencil

/-! ## Content before its closing tag and alone -/

theorem lead_of_lead_append {w t : Text} (hw : w.head? = some '{') (ht : t ≠ ['{'])
    (h : lead ('{' :: (t ++ w)) = .text) : lead ('{' :: t) = .text := by
  obtain ⟨u, rfl⟩ := List.head?_eq_some_iff.1 hw
  cases t with
  | nil => rfl
  | cons c t =>
      rw [lead_brace] at h ⊢
      by_cases hc : c = '{'
      · subst hc
        cases t with
        | nil => exact absurd rfl ht
        | cons d t =>
            by_cases hd : d = '{'
            · rw [if_pos (by simp [hd])]
            · rw [if_neg (by simp [hd]), if_pos (by simp)] at h
              cases h
      · rw [if_neg (by simp [hc]), if_neg (by simp [hc])] at h ⊢
        cases hdrop : (c :: t).dropWhile isLineBlank with
        | nil => rfl
        | cons e v =>
            rw [List.dropWhile_append, hdrop] at h
            simpa using h

/-- What is read before a brace is read so at the end of a text, unless a brace stands there. -/
theorem reads_of_before_brace {w t : Text} {ns : List Node} (hw : w.head? = some '{')
    (h : Reads w t ns) : t.getLast? ≠ some '{' → Reads [] t ns := by
  induction h with
  | nil => intro _; exact .nil
  | @text ch t ns hlead _ ih =>
      intro hlast
      have hrest : t.getLast? ≠ some '{' := by
        cases t with
        | nil => simp
        | cons c t => rwa [List.getLast?_cons_cons] at hlast
      refine .text ?_ (ih hrest)
      rw [List.append_nil]
      by_cases hch : ch = '{'
      · subst hch
        refine lead_of_lead_append hw ?_ hlead
        rintro rfl
        exact hrest rfl
      · exact lead_of_ne hch _
  | slot hz _ ih => intro hlast; exact .slot hz (ih (getLast?_ne_of_append hlast))
  | @define opening closing br t body d ns hd hbr _ ih =>
      intro hlast
      refine .define hd ?_ (ih ?_)
      · rw [List.append_nil, ← lineBreak_append hw, List.append_assoc]
        exact hbr
      · simp only [← List.append_assoc] at hlast
        exact getLast?_ne_of_append hlast

/-- A brace in front of a closing tag would begin a slot. -/
theorem getLast?_ne_of_reads {w t : Text} {ns : List Node} (hw : lead w = .closing)
    (h : Reads w t ns) : t.getLast? ≠ some '{' := by
  induction h with
  | nil => simp
  | @text ch t ns hlead _ ih =>
      refine getLast?_append_ne (s := [ch]) ih fun ht => ?_
      subst ht
      intro hlast
      obtain rfl : ch = '{' := by simpa using hlast
      obtain ⟨u, rfl⟩ := exists_cons_of_lead (t := w) (by rw [hw]; decide)
      rw [List.nil_append, lead_brace_of_closing hw] at hlead
      cases hlead
  | slot hz _ ih => exact getLast?_append_ne ih fun _ => hz.getLast?_ne
  | @define opening closing br t body d ns hd hbr _ ih =>
      have hall : opening ++ (body.getD [] ++ (closing ++ (br ++ t))) =
          (opening ++ (body.getD [] ++ closing)) ++ br ++ t := by simp
      rw [hall]
      refine getLast?_append_ne ih fun _ => getLast?_append_ne ?_ fun _ => hd.getLast?_ne
      rw [← hbr]
      exact fun hopen => absurd (getLast?_lineBreak _ _ hopen) (by decide)

/-! ## Line breaks at the ends of content -/

/-- A definition that is read by itself ends with a brace: a line break at its end would be taken only if
no other one came behind it. -/
theorem DefinitionText.exists_append {opening closing : Text} {body : Option Text} {d : Definition}
    (h : DefinitionText opening body closing d) :
    ∃ y, opening ++ (body.getD [] ++ closing) = y ++ ['}'] := by
  obtain ⟨-, y, w, hy, hw⟩ := text_of_definition (h.2 0 [])
  obtain ⟨-, y', w', hy', hw'⟩ := text_of_definition (h.2 0 ['\n'])
  have hfront : opening ++ (body.getD [] ++ closing) = y ++ '}' :: lineBreak w := by
    simpa [DefinitionSource.text, lineBreak] using hy
  have hlonger : y ++ '}' :: lineBreak w ++ ['\n'] = y' ++ '}' :: lineBreak w' := by
    rw [← hfront, ← hy']
    simp [DefinitionSource.text, lineBreak]
  have hreverse := congrArg List.reverse hlonger
  rw [hfront]
  -- seen from the end, one line break is not two
  rcases isBreak_lineBreak w with hbr | hbr | hbr
  · exact ⟨y, by rw [hbr]⟩
  all_goals
    rw [hbr] at hreverse
    rcases isBreak_lineBreak w' with hbr' | hbr' | hbr' <;> simp [hbr'] at hreverse

theorem lead_append_break {b : Text} (hb : IsBreak b) (ch : Char) (t : Text) :
    lead (ch :: (t ++ b)) = lead (ch :: t) := by
  by_cases hch : ch = '{'
  · subst hch
    cases t with
    | nil => rcases hb with rfl | rfl | rfl <;> rfl
    | cons c t =>
        have htwo : (c :: t ++ b).take 2 = ['{', '{'] ↔ (c :: t).take 2 = ['{', '{'] := by
          cases t with
          | nil => rcases hb with rfl | rfl | rfl <;> simp
          | cons d t => simp
        have hnext : leadBefore ((c :: t ++ b).dropWhile isLineBlank).head? =
            leadBefore ((c :: t).dropWhile isLineBlank).head? := by
          rw [List.dropWhile_append]
          cases hdrop : (c :: t).dropWhile isLineBlank with
          | nil => rcases hb with rfl | rfl | rfl <;> rfl
          | cons e v => rfl
        rw [lead_brace, lead_brace, hnext]
        simp only [htwo]
        rfl
  · rw [lead_of_ne hch, lead_of_ne hch]

theorem exists_reads_append_break {u b : Text} {ns : List Node} (hb : IsBreak b)
    (h : Reads [] u ns) : ∃ ms, Reads [] (u ++ b) ms := by
  induction h with
  | nil =>
      obtain ⟨ms, hms, -⟩ := exists_reads_append (.nil (r := [])) hb.not_mem
      exact ⟨ms, by simpa using hms⟩
  | @text ch t ns hlead _ ih =>
      obtain ⟨ms, hms⟩ := ih
      rw [List.append_nil] at hlead
      have htext : lead (ch :: (t ++ b ++ [])) = .text := by
        rw [List.append_nil, lead_append_break hb, hlead]
      exact ⟨Node.consText ch ms, .text htext hms⟩
  | slot hz _ ih =>
      obtain ⟨ms, hms⟩ := ih
      rw [List.append_assoc]
      exact ⟨_, .slot hz hms⟩
  | @define opening closing br t body d ns hd hbr _ ih =>
      obtain ⟨ms, hms⟩ := ih
      rw [List.append_nil] at hbr
      have hisBreak : IsBreak br := hbr ▸ isBreak_lineBreak (br ++ t)
      obtain ⟨ks, hks, -⟩ := exists_reads_define hd hisBreak hms
      exact ⟨ks, by simpa using hks⟩

/-- A text that ends with a brace does not reach into a line break behind it. -/
theorem exists_of_append_brace {y t u b : Text} (hb : '}' ∉ b) (h : y ++ '}' :: t = u ++ b) :
    ∃ v, u = y ++ '}' :: v ∧ t = v ++ b := by
  rw [List.append_cons] at h
  rcases List.append_eq_append_iff.1 h with ⟨v, hu, ht⟩ | ⟨v, hy, hb'⟩
  · exact ⟨v, by rw [hu]; simp, ht⟩
  · cases v with
    | nil => exact ⟨[], by simpa using hy.symm, by simpa using hb'.symm⟩
    | cons c v =>
        have hlast : (c :: v).getLast? = some '}' := by
          rw [← List.getLast?_append_of_ne_nil u (List.cons_ne_nil c v), ← hy]
          simp
        exact absurd (hb' ▸ List.mem_append_left _ (List.mem_of_getLast? hlast)) hb

theorem IsBreak.close_not_mem {br : Text} (h : IsBreak br) : '}' ∉ br := by
  rcases h with rfl | rfl | rfl <;> simp

theorem reads_of_append_break {b : Text} (hb : IsBreak b) : ∀ {t : Text} {ns : List Node},
    Reads [] t ns → ∀ {u : Text}, t = u ++ b → ∃ ms, Reads [] u ms := by
  intro t ns h
  induction h with
  | nil =>
      intro u hu
      obtain ⟨rfl, -⟩ := List.append_eq_nil_iff.1 hu.symm
      exact ⟨[], .nil⟩
  | @text ch t ns hlead _ ih =>
      intro u hu
      cases u with
      | nil => exact ⟨[], .nil⟩
      | cons c u =>
          obtain ⟨rfl, ht⟩ := List.cons.inj hu
          obtain ⟨ms, hms⟩ := ih ht
          have ht' : t = u ++ b := ht
          rw [List.append_nil, ht', lead_append_break hb] at hlead
          exact ⟨Node.consText ch ms, .text (by rwa [List.append_nil]) hms⟩
  | @slot z t s ns hz _ ih =>
      intro u hu
      obtain ⟨y, rfl⟩ := hz.exists_append
      have hcut : (y ++ ['}']) ++ '}' :: t = u ++ b := by rw [← hu]; simp [Reader.slotEnd]
      obtain ⟨v, rfl, rfl⟩ := exists_of_append_brace hb.close_not_mem hcut
      obtain ⟨ms, hms⟩ := ih rfl
      have hall := Reads.slot hz hms
      exact ⟨_, by simpa [Reader.slotEnd] using hall⟩
  | @define opening closing br t body d ns hd hbr hns ih =>
      intro u hu
      obtain ⟨y, hy⟩ := hd.exists_append
      have hall (w : Text) : opening ++ (body.getD [] ++ (closing ++ w)) = y ++ '}' :: w := by
        rw [List.append_cons, ← hy]
        simp
      rw [hall] at hu
      obtain ⟨v, rfl, hv⟩ := exists_of_append_brace hb.close_not_mem hu
      rw [← hall]
      rw [List.append_nil] at hbr
      have hisBreak : IsBreak br := hbr ▸ isBreak_lineBreak _
      rcases List.append_eq_append_iff.1 hv with ⟨w, rfl, rfl⟩ | ⟨w, rfl, hb'⟩
      · -- the line break of the definition is in the text
        obtain ⟨ms, hms⟩ := ih rfl
        obtain ⟨ks, hks, -⟩ := exists_reads_define hd hisBreak hms
        exact ⟨ks, hks⟩
      · -- only a part of it is, and stays text
        have hbrace : '{' ∉ v := fun hmem => hisBreak.not_mem (List.mem_append_left _ hmem)
        obtain ⟨ms, hms, -⟩ := exists_reads_append (.nil (r := [])) hbrace
        obtain ⟨ks, hks, -⟩ := exists_reads_define hd (.inl rfl) hms
        exact ⟨ks, by simpa using hks⟩

/-- Content is read by itself as its body is. -/
theorem exists_reads_trimLineBreaks (t : Text) :
    (∃ ns, Reads [] (trimLineBreaks t) ns) ↔ ∃ ns, Reads [] t ns := by
  obtain ⟨a, b, ha, hb, ht⟩ := exists_trimLineBreaks t
  constructor
  · rintro ⟨ns, hns⟩
    obtain ⟨ms, hms⟩ := exists_reads_append_break hb hns
    obtain ⟨ks, hks, -⟩ := exists_reads_append hms ha.not_mem
    exact ⟨ks, by rw [ht]; exact hks⟩
  · rintro ⟨ns, hns⟩
    rw [ht] at hns
    obtain ⟨ms, hms, -⟩ := exists_of_reads_append ha.not_mem hns
    exact reads_of_append_break hb hms rfl

/-! ## Closing tags that the text shows -/

namespace Reader

theorem IsName.forall_head? {n : Text} (h : IsName n) (r : Text) :
    ∀ c ∈ (n ++ r).head?, isLineBlank c = false := by
  obtain ⟨d, u, rfl, hd, -⟩ := h
  intro c hc
  obtain rfl : d = c := by simpa using hc
  rw [Bool.eq_false_iff]
  intro hblank
  simp only [isLineBlank, Bool.or_eq_true, decide_eq_true_eq] at hblank
  rcases hblank with rfl | rfl <;> exact absurd hd (by decide)

/-- A closing tag, blanks between its parts. -/
theorem takes_closingName {n u v w r : Text} (hn : IsName n) (hu : ∀ c ∈ u, isLineBlank c = true)
    (hv : ∀ c ∈ v, isLineBlank c = true) (hw : ∀ c ∈ w, isLineBlank c = true) :
    Takes closingName ('{' :: (u ++ '/' :: (v ++ (n ++ (w ++ ['}']))))) n r := by
  have hend : ∀ c ∈ (w ++ ['}'] ++ r).head?, isNameChar c = false := by
    intro c hc
    cases w with
    | nil =>
        obtain rfl : '}' = c := by simpa using hc
        decide
    | cons d w =>
        obtain rfl : d = c := by simpa using hc
        have hd := hw d (List.mem_cons_self ..)
        simp only [isLineBlank, Bool.or_eq_true, decide_eq_true_eq] at hd
        rcases hd with rfl | rfl <;> decide
  unfold closingName
  show Takes _ (['{'] ++ (u ++ (['/'] ++ (v ++ (n ++ (w ++ ['}'])))))) n r
  refine Takes.bind (takes_skip rfl _) (Takes.bind (takes_skipBlanks hu ?_)
    (Takes.bind (takes_eat '/' _) (Takes.bind (takes_skipBlanks hv ?_) (Takes.bind
      (takes_name hn ?_ _) (Takes.bind (takes_skipBlanks hw ?_) ((takes_demand '}' _ r).map _))))))
  · exact forall_mem_head? (by decide)
  · rw [List.append_assoc]
    exact hn.forall_head? _
  · exact hend
  · exact forall_mem_head? (by decide)

end Reader

theorem lead_closing {u : Text} (hu : ∀ c ∈ u, isLineBlank c = true) (t : Text) :
    lead ('{' :: (u ++ '/' :: t)) = .closing := by
  have hnot : ∀ {c : Char}, (u ++ '/' :: t).head? = some c → c ≠ '{' := by
    rintro c hc rfl
    cases u with
    | nil => simp at hc
    | cons d u =>
        obtain rfl : d = '{' := by simpa using hc
        exact absurd (hu '{' (List.mem_cons_self ..)) (by decide)
  have htwo : (u ++ '/' :: t).take 2 ≠ ['{', '{'] := by
    intro h
    refine hnot (c := '{') ?_ rfl
    cases hw : u ++ '/' :: t with
    | nil => simp at hw
    | cons d v => rw [hw, List.take_succ_cons] at h; simp [(List.cons.inj h).1]
  rw [lead_brace, if_neg htwo, if_neg fun h => hnot h rfl, List.dropWhile_append_of_pos hu,
    List.dropWhile_cons_of_neg (by decide)]
  rfl

/-- A closing tag that the text shows is read as one. -/
theorem closingText_of_closingTag? {name t : Text} {after : Nat} (hn : Reader.IsName name)
    (h : closingTag? name t = some after) : ∃ z r, t = z ++ r ∧ ClosingText z name := by
  obtain ⟨u, v, w, r, hu, hv, hw, rfl, -⟩ := parts_of_closingTag? h
  refine ⟨'{' :: (u ++ '/' :: (v ++ (name ++ (w ++ ['}'])))), r, by simp, fun x => ?_,
    fun x => Reader.takes_closingName hn hu hv hw⟩
  rw [List.cons_append, List.append_assoc]
  exact lead_closing hu _

theorem closingText_of_findClosing? {name : Text} (hn : Reader.IsName name) : ∀ {t : Text} {k : Closing},
    findClosing? name t = some k →
    ∃ y z r, t = y ++ (z ++ r) ∧ (z ++ r).length = k.left ∧ ClosingText z name := by
  intro t
  induction t with
  | nil => intro k h; cases h
  | cons c t ih =>
      intro k h
      unfold findClosing? at h
      split at h
      next after hafter =>
        obtain rfl := Option.some.inj h
        obtain ⟨z, r, hz, hclosing⟩ := closingText_of_closingTag? hn hafter
        exact ⟨[], z, r, hz, by rw [← hz]; rfl, hclosing⟩
      next =>
        obtain ⟨y, z, r, rfl, hleft, hclosing⟩ := ih h
        exact ⟨c :: y, z, r, rfl, hleft, hclosing⟩

end Stencil
