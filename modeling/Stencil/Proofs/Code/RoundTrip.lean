import Stencil.Proofs.Code.Bounds
import Stencil.Proofs.Code.Masking

/-! # Masking any text and restoring it

Placeholders stand among the characters of a text, and nothing keeps a text from having some of its own. One
that names a stored segment is taken for that segment: each such replacement adds backticks, as code has some,
so that the text cannot come out as it was. A masked text is restored to what it was exactly if it names none
of its own segments (`restore_mask_iff`). -/
set_option autoImplicit false
namespace Stencil.Vault

open Code (Bounded)

def Names (n : Nat) (t : Text) : Prop :=
  ∃ a digits b, t = a ++ placeholderOpen :: (digits ++ placeholderClose :: b) ∧ digits ≠ [] ∧
    (∀ c ∈ digits, c.isDigit = true) ∧ Text.digitsValue digits < n

theorem Names.append {n : Nat} {t : Text} (h : Names n t) (s u : Text) : Names n (s ++ (t ++ u)) := by
  obtain ⟨a, digits, b, rfl, hne, hdigits, hlt⟩ := h
  exact ⟨s ++ a, digits, b ++ u, by simp, hne, hdigits, hlt⟩

theorem not_names_of_not_mem {n : Nat} {t : Text} (h : placeholderOpen ∉ t) : ¬Names n t := by
  rintro ⟨a, digits, b, rfl, -⟩
  exact h (by simp)

/-! ## One round -/

theorem placeholderTail?_eq_some_iff {t digits rest : Text} :
    placeholderTail? t = some (digits, rest) ↔
      t = digits ++ placeholderClose :: rest ∧ digits ≠ [] ∧ ∀ c ∈ digits, c.isDigit = true := by
  constructor
  · intro h
    have hsplit := List.takeWhile_append_dropWhile (p := Char.isDigit) (l := t)
    simp only [placeholderTail?] at h
    split at h
    · cases h
    next c tail hdrop =>
      split at h
      next hclose =>
        obtain ⟨rfl, rfl⟩ := Prod.mk.inj (Option.some.inj h)
        refine ⟨?_, hclose.1, fun c hc => List.all_eq_true.1 List.all_takeWhile c hc⟩
        rw [← hclose.2, ← hdrop, hsplit]
      next => cases h
  · rintro ⟨rfl, hne, hdigits⟩
    have hclose : placeholderClose.isDigit = false := by decide
    simp [placeholderTail?, List.takeWhile_append_of_pos hdigits, List.dropWhile_append_of_pos hdigits,
      hclose, hne]

section

variable {v : Vault} {s t : Text}

theorem restoreOnce_of_tail {digits : Text} (h : placeholderTail? s = some (digits, t)) :
    v.restoreOnce (placeholderOpen :: s) = v.segment digits ++ v.restoreOnce t := by
  rw [restoreOnce, if_pos rfl]
  split
  next digits' after heq =>
    rw [h] at heq
    obtain ⟨rfl, rfl⟩ := Prod.mk.inj (Option.some.inj heq)
    rfl
  next heq =>
    rw [h] at heq
    cases heq

theorem restoreOnce_of_no_tail (h : placeholderTail? s = none) :
    v.restoreOnce (placeholderOpen :: s) = placeholderOpen :: v.restoreOnce s := by
  rw [restoreOnce, if_pos rfl]
  split
  next heq =>
    rw [h] at heq
    cases heq
  next => rfl

/-- Behind the beginning of a placeholder, a place that cuts none is not in front of its remainder. -/
theorem head?_of_cuts (hs : ∀ c ∈ s, c.isDigit = true) (hcut : Cuts (placeholderOpen :: s) t) :
    ∀ c ∈ t.head?, c.isDigit = false ∧ c ≠ placeholderClose := by
  refine hcut.resolve_left fun hlast => ?_
  cases hl : (placeholderOpen :: s).getLast? with
  | none => exact absurd hl (by simp)
  | some e =>
      obtain ⟨hopen, hdigit⟩ := hlast e hl
      rcases List.mem_cons.1 (List.mem_of_getLast? hl) with rfl | he
      · exact hopen rfl
      · rw [hs e he] at hdigit
        cases hdigit

/-- A place that cuts no placeholder does not give rise to one. -/
theorem placeholderTail?_append_eq_none (h : placeholderTail? s = none)
    (hcut : Cuts (placeholderOpen :: s) t) : placeholderTail? (s ++ t) = none := by
  cases htail : placeholderTail? (s ++ t) with
  | none => rfl
  | some p =>
      obtain ⟨digits, rest⟩ := p
      obtain ⟨hsplit, hne, hdigits⟩ := placeholderTail?_eq_some_iff.1 htail
      by_cases hprefix : s <+: digits
      · obtain ⟨b, rfl⟩ := hprefix
        rw [List.append_assoc, List.append_cancel_left_eq] at hsplit
        subst hsplit
        have hhead := head?_of_cuts (fun c hc => hdigits c (List.mem_append_left _ hc)) hcut
        cases b with
        | nil => exact absurd rfl (hhead placeholderClose rfl).2
        | cons d b =>
            have hdigit := hdigits d (by simp)
            rw [(hhead d rfl).1] at hdigit
            cases hdigit
      · rcases List.append_eq_append_iff.1 hsplit with ⟨b, hb, -⟩ | ⟨b, rfl, hb⟩
        · exact absurd ⟨b, hb.symm⟩ hprefix
        · cases b with
          | nil => exact absurd (by simp) hprefix
          | cons c b =>
              obtain ⟨rfl, -⟩ := List.cons.inj hb
              rw [placeholderTail?_eq_some_iff.2 ⟨rfl, hne, hdigits⟩] at h
              cases h

theorem restoreOnce_append (h : Cuts s t) : v.restoreOnce (s ++ t) = v.restoreOnce s ++ v.restoreOnce t := by
  fun_induction restoreOnce v s with
  | case1 => rfl
  | case2 rest digits after htail ih =>
      obtain ⟨rfl, hne, hdigits⟩ := placeholderTail?_eq_some_iff.1 htail
      have hafter : Cuts after t := by
        have hcut : Cuts (placeholderOpen :: digits ++ [placeholderClose] ++ after) t := by simpa using h
        exact hcut.of_append
      have htail' : placeholderTail? (digits ++ placeholderClose :: after ++ t) =
          some (digits, after ++ t) := placeholderTail?_eq_some_iff.2 ⟨by simp, hne, hdigits⟩
      rw [List.cons_append, restoreOnce_of_tail htail', ih hafter, List.append_assoc]
  | case3 rest htail ih =>
      rw [List.cons_append, restoreOnce_of_no_tail (placeholderTail?_append_eq_none htail h), ih h.tail]
      rfl
  | case4 c rest hc ih =>
      rw [List.cons_append, restoreOnce, if_neg hc, ih h.tail]
      rfl

/-- A placeholder that names no segment stays, like every other character. -/
theorem restoreOnce_of_not_names (h : ¬Names v.segments.length t) : v.restoreOnce t = t := by
  fun_induction restoreOnce v t with
  | case1 => rfl
  | case2 rest digits after htail ih =>
      obtain ⟨rfl, hne, hdigits⟩ := placeholderTail?_eq_some_iff.1 htail
      have hseg : v.segments[Text.digitsValue digits]? = none := by
        rw [List.getElem?_eq_none_iff]
        exact Nat.le_of_not_lt fun hlt => h ⟨[], digits, after, rfl, hne, hdigits, hlt⟩
      have hafter : ¬Names v.segments.length after := fun hnames => h <| by
        have happend := hnames.append (placeholderOpen :: digits ++ [placeholderClose]) []
        simpa using happend
      rw [ih hafter, segment, hseg]
      simp
  | case3 rest htail ih =>
      rw [ih fun hnames => h (by simpa using hnames.append [placeholderOpen] [])]
  | case4 c rest hc ih =>
      rw [ih fun hnames => h (by simpa using hnames.append [c] [])]

/-- No backtick gets lost. -/
theorem count_le_restoreOnce (v : Vault) (t : Text) : t.count '`' ≤ (v.restoreOnce t).count '`' := by
  fun_induction restoreOnce v t with
  | case1 => exact Nat.le_refl _
  | case2 rest digits after htail ih =>
      obtain ⟨rfl, -, hdigits⟩ := placeholderTail?_eq_some_iff.1 htail
      have hzero : digits.count '`' = 0 := by
        rw [List.count_eq_zero]
        intro hmem
        exact absurd (hdigits _ hmem) (by decide)
      have hopen : placeholderOpen ≠ '`' := by decide
      have hclose : placeholderClose ≠ '`' := by decide
      rw [List.count_append, List.count_cons_of_ne hopen, List.count_append, List.count_cons_of_ne hclose,
        hzero]
      omega
  | case3 rest htail ih =>
      rw [List.count_cons, List.count_cons]
      omega
  | case4 c rest hc ih =>
      rw [List.count_cons, List.count_cons]
      omega

/-- A placeholder that names a segment gives way to at least one backtick. -/
theorem count_lt_restoreOnce (hv : ∀ s ∈ v.segments, '`' ∈ s) (h : Names v.segments.length t) :
    t.count '`' < (v.restoreOnce t).count '`' := by
  obtain ⟨a, digits, b, rfl, hne, hdigits, hlt⟩ := h
  have hcut : Cuts a (placeholderOpen :: (digits ++ placeholderClose :: b)) := .inr fun c hc => by
    obtain rfl : placeholderOpen = c := by simpa using hc
    decide
  have hseg : v.segment digits = v.segments[Text.digitsValue digits] := by
    rw [segment, List.getElem?_eq_getElem hlt]
    rfl
  have hpos : 0 < (v.segment digits).count '`' := by
    rw [hseg]
    exact List.count_pos_iff.2 (hv _ (List.getElem_mem hlt))
  have hzero : digits.count '`' = 0 := by
    rw [List.count_eq_zero]
    intro hmem
    exact absurd (hdigits _ hmem) (by decide)
  have hopen : placeholderOpen ≠ '`' := by decide
  have hclose : placeholderClose ≠ '`' := by decide
  have ha := count_le_restoreOnce v a
  have hb := count_le_restoreOnce v b
  rw [restoreOnce_append hcut, restoreOnce_of_tail (placeholderTail?_eq_some_iff.2 ⟨rfl, hne, hdigits⟩)]
  simp only [List.count_append, List.count_cons_of_ne hopen, List.count_cons_of_ne hclose]
  omega

end

/-! ## Masked texts -/

section

variable {v w : Vault} {a g t : Text}

theorem restoreOnce_code {i : Nat} (h : w.segments[i]? = some g) :
    w.restoreOnce (a ++ (placeholder i ++ t)) = w.restoreOnce a ++ (g ++ w.restoreOnce t) := by
  have hcut : Cuts a (placeholder i ++ t) := .inr fun c hc => by
    obtain rfl : placeholderOpen = c := by simpa [placeholder] using hc
    decide
  rw [restoreOnce_append hcut, restoreOnce_placeholder h]

theorem prefix_maskPieces : ∀ (ps : List Code.Piece) (v : Vault),
    v.segments <+: (v.maskPieces ps).2.segments := by
  intro ps
  induction ps with
  | nil => intro v; exact List.prefix_rfl
  | cons piece ps ih =>
      intro v
      cases piece with
      | prose s => exact ih v
      | code g => exact (List.prefix_append _ [g]).trans (ih (v.protect g).2)

/-- The first round gives the text back if it names no segment. -/
theorem restoreOnce_maskPieces : ∀ {ps : List Code.Piece} {v : Vault} {a : Text},
    (v.maskPieces ps).2.segments <+: w.segments →
    ¬Names w.segments.length (a ++ Code.source ps) →
    w.restoreOnce (a ++ (v.maskPieces ps).1) = a ++ Code.source ps := by
  intro ps
  induction ps with
  | nil => intro v a _ h; exact restoreOnce_of_not_names h
  | cons piece ps ih =>
      intro v a hw h
      cases piece with
      | prose s =>
          rw [Code.source_cons_prose, ← List.append_assoc] at h ⊢
          have hrest := ih hw h
          rwa [List.append_assoc] at hrest
      | code g =>
          have hseg : w.segments[v.segments.length]? = some g :=
            getElem?_of_grow ((prefix_maskPieces ps (v.protect g).2).trans hw) _ _ (by simp [protect])
          rw [Code.source_cons_code] at h ⊢
          have hfront : ¬Names w.segments.length a := fun hnames =>
            h (by simpa using hnames.append [] (g ++ Code.source ps))
          have hrest : ¬Names w.segments.length ([] ++ Code.source ps) := fun hnames =>
            h (by simpa using hnames.append (a ++ g) [])
          have hmasked := ih (v := (v.protect g).2) hw hrest
          rw [List.nil_append] at hmasked
          show w.restoreOnce (a ++ (placeholder v.segments.length ++ ((v.protect g).2.maskPieces ps).1)) = _
          rw [restoreOnce_code hseg, restoreOnce_of_not_names hfront, hmasked]
          rfl

/-- The first round gives back at least the backticks of the text. -/
theorem count_le_restoreOnce_maskPieces : ∀ {ps : List Code.Piece} {v : Vault} {a : Text},
    (v.maskPieces ps).2.segments <+: w.segments →
    (a ++ Code.source ps).count '`' ≤ (w.restoreOnce (a ++ (v.maskPieces ps).1)).count '`' := by
  intro ps
  induction ps with
  | nil => intro v a _; exact count_le_restoreOnce w _
  | cons piece ps ih =>
      intro v a hw
      cases piece with
      | prose s =>
          have hrest := ih (a := a ++ s) hw
          rwa [List.append_assoc, List.append_assoc, ← Code.source_cons_prose] at hrest
      | code g =>
          have hseg : w.segments[v.segments.length]? = some g :=
            getElem?_of_grow ((prefix_maskPieces ps (v.protect g).2).trans hw) _ _ (by simp [protect])
          have hmasked := ih (v := (v.protect g).2) (a := []) hw
          have hfront := count_le_restoreOnce w a
          rw [Code.source_cons_code]
          show _ ≤ (w.restoreOnce
            (a ++ (placeholder v.segments.length ++ ((v.protect g).2.maskPieces ps).1))).count '`'
          rw [restoreOnce_code hseg]
          simp only [List.count_append, List.nil_append] at hmasked ⊢
          omega

end

/-- Without backticks there is no code. -/
theorem mask_of_not_mem (v : Vault) {t : Text} (h : '`' ∉ t) : v.mask t = (t, v) := by
  have hprose : ∀ ps : List Code.Piece, Bounded ps → '`' ∉ Code.source ps →
      ps.all Code.Piece.isProse = true := by
    intro ps
    induction ps with
    | nil => intro _ _; rfl
    | cons piece ps ih =>
        intro hps hticks
        cases piece with
        | prose s =>
            rw [Code.source_cons_prose, List.mem_append, not_or] at hticks
            exact ih hps hticks.2
        | code g =>
            obtain ⟨⟨b, u, rfl, -⟩, -⟩ := hps
            simp [Code.source_cons_code] at hticks
  rw [mask_eq_self_iff]
  refine hprose _ (Code.bounded_pieces t) ?_
  rwa [Code.source_pieces]

/-- An empty vault has nothing to put back. -/
theorem restore_empty (t : Text) : empty.restore t = t := by
  refine restoreOnce_of_not_names ?_
  rintro ⟨a, digits, b, -, -, -, hlt⟩
  exact Nat.not_lt_zero _ hlt

theorem length_spansFrom : ∀ (ps : List Code.Piece) (offset : Nat),
    (Code.spansFrom offset ps).length = ps.countP fun piece => !piece.isProse := by
  intro ps
  induction ps with
  | nil => intro offset; rfl
  | cons piece ps ih =>
      intro offset
      cases piece with
      | prose s => simp [Code.spansFrom, Code.Piece.isProse, ih]
      | code g => simp [Code.spansFrom, Code.Piece.isProse, ih]

/-- Masking stores the code spans. -/
theorem length_segments_mask (t : Text) :
    (empty.mask t).2.segments.length = (Code.spans t).length := by
  rw [mask, length_segments_maskPieces, Code.spans, length_spansFrom]
  exact Nat.zero_add _

theorem count_le_repeat (v : Vault) (t : Text) : ∀ {j k : Nat}, j ≤ k →
    (Nat.repeat v.restoreOnce j t).count '`' ≤ (Nat.repeat v.restoreOnce k t).count '`' := by
  intro j k hjk
  induction hjk with
  | refl => exact Nat.le_refl _
  | step _ ih => exact Nat.le_trans ih (count_le_restoreOnce v _)

theorem restore_mask_of_not_names {t : Text} (h : ¬Names (Code.spans t).length t) :
    (empty.mask t).2.restore (empty.mask t).1 = t := by
  rw [← length_segments_mask] at h
  have hsource := Code.source_pieces t
  have hfirst : (empty.mask t).2.restoreOnce (empty.mask t).1 = t := by
    have hstored : (empty.maskPieces (Code.pieces t)).2.segments <+: (empty.mask t).2.segments :=
      List.prefix_rfl
    have hmasked := restoreOnce_maskPieces (a := []) hstored (by rwa [hsource, List.nil_append])
    rwa [List.nil_append, hsource] at hmasked
  have hrounds : ∀ k, Nat.repeat (empty.mask t).2.restoreOnce (k + 1) (empty.mask t).1 = t := by
    intro k
    induction k with
    | zero => exact hfirst
    | succ k ih => rw [Nat.repeat, ih, restoreOnce_of_not_names h]
  exact hrounds _

theorem not_names_of_restore_mask {t : Text} (h : (empty.mask t).2.restore (empty.mask t).1 = t) :
    ¬Names (Code.spans t).length t := by
  rw [← length_segments_mask]
  intro hnames
  have hpos : 1 ≤ (empty.mask t).2.segments.length := by
    obtain ⟨a, digits, b, -, -, -, hlt⟩ := hnames
    omega
  have hfirst : t.count '`' ≤ (Nat.repeat (empty.mask t).2.restoreOnce 1 (empty.mask t).1).count '`' := by
    have hstored : (empty.maskPieces (Code.pieces t)).2.segments <+: (empty.mask t).2.segments :=
      List.prefix_rfl
    have hmasked := count_le_restoreOnce_maskPieces (a := []) hstored
    rwa [List.nil_append, Code.source_pieces] at hmasked
  have hlater := count_le_repeat (empty.mask t).2 (empty.mask t).1 hpos
  rw [restore, Nat.repeat] at h
  -- so the last round adds no backtick, and there was nothing left for it to do
  have hlast : ¬Names (empty.mask t).2.segments.length
      (Nat.repeat (empty.mask t).2.restoreOnce (empty.mask t).2.segments.length (empty.mask t).1) := by
    intro hnamed
    have hmore := count_lt_restoreOnce (tick_mem_mask t) hnamed
    rw [h] at hmore
    omega
  rw [restoreOnce_of_not_names hlast] at h
  rw [h] at hlast
  exact hlast hnames

/-- A masked text is restored to what it was exactly if it has no placeholder of one of its own code spans, be
it in the prose or in the code. -/
theorem restore_mask_iff (t : Text) :
    (empty.mask t).2.restore (empty.mask t).1 = t ↔ ¬Names (Code.spans t).length t :=
  ⟨not_names_of_restore_mask, restore_mask_of_not_names⟩

/-- A placeholder in the prose is taken for the first code span, and so is one in the code itself. -/
theorem restore_mask_own_placeholder :
    (empty.mask "\uE0000\uE001`a`".toList).2.restore (empty.mask "\uE0000\uE001`a`".toList).1 =
        "`a``a`".toList ∧
      (empty.mask "`\uE0000\uE001`".toList).2.restore (empty.mask "`\uE0000\uE001`".toList).1 ≠
        "`\uE0000\uE001`".toList := by
  decide +kernel

end Stencil.Vault
