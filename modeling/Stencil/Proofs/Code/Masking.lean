import Stencil.Proofs.Code.Cover
import Stencil.Proofs.Code.Restoration
import Stencil.Proofs.Text.Lines

/-! # Masking a masked text

A second masking finds no inline span in a masked text. It can find a fence: a line that begins with
three or more backticks opens none as long as other backticks follow, but once these are covered it
does. `mask_mask_iff` says that such a line is the only thing that a second masking can find. -/
set_option autoImplicit false
namespace Stencil

namespace Code

def openLines (lines : List Text) : List Text :=
  match lines with
  | [] => []
  | line :: rest =>
    match fenceOpening? line with
    | some n =>
      match rest.findIdx? (closesFence n) with
      | some i => openLines (rest.drop (i + 1))
      | none => []
    | none => line :: openLines rest
termination_by lines.length
decreasing_by
  all_goals simp only [List.length_drop, List.length_cons]; omega

/-- The second lines are the first ones masked: an inert line for each fence, and every other line
with its code covered. -/
inductive CoveredLines : List Text → List Text → Prop
  | nil : CoveredLines [] []
  | fence {line p : Text} {rest ms : List Text} {n i : Nat} : fenceOpening? line = some n →
      rest.findIdx? (closesFence n) = some i → Inert p → CoveredLines (rest.drop (i + 1)) ms →
      CoveredLines (line :: rest) (p :: ms)
  | unclosed {line p : Text} {rest : List Text} {n : Nat} : fenceOpening? line = some n →
      rest.findIdx? (closesFence n) = none → Inert p → CoveredLines (line :: rest) [p]
  | line {line m : Text} {rest ms : List Text} : fenceOpening? line = none →
      Covered (inlinePieces (runs line)) m → CoveredLines rest ms →
      CoveredLines (line :: rest) (m :: ms)

theorem CoveredLines.ne_nil {lines ms : List Text} (h : CoveredLines lines ms) (hne : lines ≠ []) :
    ms ≠ [] := by
  cases h with
  | nil => exact absurd rfl hne
  | fence => simp
  | unclosed => simp
  | line => simp

/-- A covered text is the covered lines, joined. -/
theorem exists_coveredLines {lines : List Text} : ∀ {m : Text}, Covered (linePieces lines) m →
    ∃ ms, m = Text.join ['\n'] ms ∧ CoveredLines lines ms := by
  fun_induction linePieces lines with
  | case1 =>
      intro m h
      cases h
      exact ⟨[], rfl, .nil⟩
  | case2 line rest n hn i hi ih =>
      intro m h
      obtain ⟨p, k, rfl, hp, hk⟩ := h.of_code
      by_cases hlast : rest.length ≤ i + 1
      · rw [if_pos hlast] at hk
        cases hk
        refine ⟨[p], by simp [Text.join, List.intercalate], .fence hn hi hp ?_⟩
        rw [List.drop_of_length_le hlast]
        exact .nil
      · rw [if_neg hlast] at hk
        obtain ⟨k', rfl, hk'⟩ := hk.of_prose
        obtain ⟨ms, rfl, hms⟩ := ih hlast hk'
        have hne : rest.drop (i + 1) ≠ [] := by
          intro h0
          have := List.drop_eq_nil_iff.1 h0
          omega
        refine ⟨p :: ms, ?_, .fence hn hi hp hms⟩
        rw [join_cons_ne_nil p (hms.ne_nil hne)]
        rfl
  | case3 line rest n hn hi =>
      intro m h
      obtain ⟨p, k, rfl, hp, hk⟩ := h.of_code
      cases hk
      exact ⟨[p], by simp [Text.join, List.intercalate], .unclosed hn hi hp⟩
  | case4 line rest hn ih =>
      intro m h
      obtain ⟨a, b, rfl, ha, hb⟩ := h.of_append
      by_cases hrest : rest = []
      · subst hrest
        cases hb
        exact ⟨[a], by simp [Text.join, List.intercalate], .line hn ha .nil⟩
      · rw [if_neg (by simpa using hrest)] at hb
        obtain ⟨k, rfl, hk⟩ := hb.of_prose
        obtain ⟨ms, rfl, hms⟩ := ih hk
        refine ⟨a :: ms, ?_, .line hn ha hms⟩
        rw [join_cons_ne_nil a (hms.ne_nil hrest)]
        rfl

theorem not_mem_newline_of_covered {ps : List Piece} {m : Text} (h : Covered ps m)
    (hps : '\n' ∉ source ps) : '\n' ∉ m := by
  induction h with
  | nil => simp
  | prose s h ih =>
      simp only [source, List.flatMap_cons, Piece.source, List.mem_append, not_or] at hps ih ⊢
      exact ⟨hps.1, ih hps.2⟩
  | code g hp h ih =>
      simp only [source, List.flatMap_cons, Piece.source, List.mem_append, not_or] at hps ih ⊢
      exact ⟨fun hm => (hp.2 _ hm).2.1 rfl, ih hps.2⟩

/-- Masked lines are lines. -/
theorem CoveredLines.not_mem_newline {lines ms : List Text} (h : CoveredLines lines ms)
    (hlines : ∀ line ∈ lines, '\n' ∉ line) : ∀ m ∈ ms, '\n' ∉ m := by
  induction h with
  | nil => simp
  | fence _ _ hp _ ih =>
      intro m hm
      rcases List.mem_cons.1 hm with rfl | hm
      · exact fun h => (hp.2 _ h).2.1 rfl
      · exact ih (fun l hl => hlines l (List.mem_cons_of_mem _ (List.mem_of_mem_drop hl))) m hm
  | unclosed _ _ hp =>
      intro m hm
      rw [List.mem_singleton] at hm
      subst hm
      exact fun h => (hp.2 _ h).2.1 rfl
  | @line line k rest ms _ hk _ ih =>
      intro m hm
      rcases List.mem_cons.1 hm with rfl | hm
      · refine not_mem_newline_of_covered hk ?_
        rw [source_inlinePieces, source_runs]
        exact hlines line (List.mem_cons_self ..)
      · exact ih (fun l hl => hlines l (List.mem_cons_of_mem _ hl)) m hm

/-! ## Reading the masked lines -/

theorem fenceOpening?_inert {p : Text} (hp : Inert p) : fenceOpening? p = none := by
  have h := front_inert hp []
  simp only [List.append_nil, front, Prod.mk.injEq] at h
  exact h.2.2.1

theorem all_isProse_runs_inert {p : Text} (hp : Inert p) :
    (inlinePieces (runs p)).all Piece.isProse = true := by
  apply all_isProse_inlinePieces
  have h := tickLengths_runs_append (not_mem_tick_of_inert hp) []
  rw [List.append_nil] at h
  rw [h]
  exact List.nodup_nil

/-- A line that opens no fence adds its own pieces to those of the lines behind it. -/
theorem all_isProse_linePieces_cons {m : Text} (hm : fenceOpening? m = none)
    (hinline : (inlinePieces (runs m)).all Piece.isProse = true) (ms : List Text) :
    (linePieces (m :: ms)).all Piece.isProse = (linePieces ms).all Piece.isProse := by
  rw [linePieces, hm]
  simp only [List.all_append, hinline, Bool.true_and]
  cases ms with
  | nil => simp [linePieces]
  | cons k ms => simp [Piece.isProse]

theorem all_isProse_linePieces_fence {m : Text} {n : Nat} (hm : fenceOpening? m = some n)
    (ms : List Text) : (linePieces (m :: ms)).all Piece.isProse = false := by
  rw [linePieces, hm]
  cases hi : ms.findIdx? (closesFence n) <;> simp [hi, Piece.isProse]

/-- Masked lines hold no code, but for a line that opens a fence now that its code is covered. -/
theorem CoveredLines.all_isProse_iff {lines ms : List Text} (h : CoveredLines lines ms) :
    (linePieces ms).all Piece.isProse = true ↔ ∀ line ∈ openLines lines, hidesFence line = false := by
  induction h with
  | nil => simp [linePieces, openLines]
  | fence hn hi hp _ ih =>
      rw [all_isProse_linePieces_cons (fenceOpening?_inert hp) (all_isProse_runs_inert hp), ih,
        openLines, hn]
      simp only [hi]
  | unclosed hn hi hp =>
      rw [all_isProse_linePieces_cons (fenceOpening?_inert hp) (all_isProse_runs_inert hp),
        openLines, hn]
      simp [hi, linePieces]
  | @line line m rest ms hn hm _ ih =>
      -- only here can a fence come about; when none does, the runs left over differ in length
      have hopen := isSome_fenceOpening?_of_covered hm
      rw [openLines, hn]
      simp only [List.forall_mem_cons]
      cases hfence : fenceOpening? m with
      | some n =>
          rw [hfence, Option.isSome_some] at hopen
          simp [all_isProse_linePieces_fence hfence, ← hopen]
      | none =>
          rw [hfence, Option.isSome_none] at hopen
          have hnodup := (nodup_tickLengths_of_covered (maximal_runs line) hm).1
          rw [all_isProse_linePieces_cons hfence (all_isProse_inlinePieces hnodup), ih]
          simp [← hopen]

theorem spansFrom_eq_nil_iff : ∀ (ps : List Piece) (offset : Nat),
    spansFrom offset ps = [] ↔ ps.all Piece.isProse = true := by
  intro ps
  induction ps with
  | nil => intro offset; simp [spansFrom]
  | cons piece ps ih =>
      intro offset
      cases piece with
      | prose s => simp only [spansFrom, ih, List.all_cons, Piece.isProse, Bool.true_and]
      | code s => simp [spansFrom, Piece.isProse]

end Code

/-! ## Masking with a vault -/

namespace Vault

open Code (Piece Inert Covered CoveredLines)

theorem inert_placeholder (index : Nat) : Inert (placeholder index) := by
  refine ⟨by simp [placeholder], fun c hc => ?_⟩
  rcases mem_placeholder hc with rfl | hdigit | rfl
  · decide
  · refine ⟨?_, ?_, ?_⟩
    · rintro rfl; exact absurd hdigit (by decide)
    · rintro rfl; exact absurd hdigit (by decide)
    · rw [Bool.eq_false_iff]
      intro hb
      simp only [isLineBlank, Bool.or_eq_true, decide_eq_true_eq] at hb
      rcases hb with rfl | rfl
      · exact absurd hdigit (by decide)
      · exact absurd hdigit (by decide)
  · decide

theorem covered_maskPieces : ∀ (ps : List Piece) (v : Vault), Covered ps (v.maskPieces ps).1 := by
  intro ps
  induction ps with
  | nil => intro v; exact .nil
  | cons piece ps ih =>
      intro v
      cases piece with
      | prose s => exact .prose s (ih v)
      | code g => exact .code g (inert_placeholder _) (ih (v.protect g).2)

theorem length_segments_maskPieces : ∀ (ps : List Piece) (v : Vault),
    (v.maskPieces ps).2.segments.length =
      v.segments.length + ps.countP (fun piece => !piece.isProse) := by
  intro ps
  induction ps with
  | nil => intro v; rfl
  | cons piece ps ih =>
      intro v
      cases piece with
      | prose s => simpa [maskPieces, Piece.isProse] using ih v
      | code g =>
          have hstored : (v.protect g).2.segments.length = v.segments.length + 1 := by simp [protect]
          have hcount : (Piece.code g :: ps).countP (fun piece => !piece.isProse) =
              ps.countP (fun piece => !piece.isProse) + 1 := by simp [Piece.isProse]
          show ((v.protect g).2.maskPieces ps).2.segments.length = _
          rw [ih, hstored, hcount]
          omega

/-- Pieces without code are masked as they are. -/
theorem maskPieces_of_isProse : ∀ {ps : List Piece} (v : Vault), ps.all Piece.isProse = true →
    v.maskPieces ps = (Code.source ps, v) := by
  intro ps
  induction ps with
  | nil => intro v _; rfl
  | cons piece ps ih =>
      intro v h
      cases piece with
      | prose s =>
          rw [List.all_cons, Bool.and_eq_true] at h
          simp [maskPieces, ih v h.2, Code.source, Piece.source]
      | code g => simp [Piece.isProse] at h

/-- Masking changes nothing exactly when there is no code. -/
theorem mask_eq_self_iff (v : Vault) (t : Text) :
    v.mask t = (t, v) ↔ (Code.pieces t).all Piece.isProse = true := by
  constructor
  · intro h
    have hlength := length_segments_maskPieces (Code.pieces t) v
    rw [← mask, h] at hlength
    have hzero : (Code.pieces t).countP (fun piece => !piece.isProse) = 0 := by
      simp only at hlength
      omega
    rw [List.countP_eq_zero] at hzero
    rw [List.all_eq_true]
    intro piece hpiece
    simpa using hzero piece hpiece
  · intro h
    rw [mask, maskPieces_of_isProse v h, Code.source_pieces]

/-- The pieces of a masked text are prose, but for a line that opens a fence now that its inline
spans are covered. -/
theorem all_isProse_pieces_mask_iff (v : Vault) (t : Text) :
    (Code.pieces (v.mask t).1).all Piece.isProse = true ↔
      ∀ line ∈ Code.openLines (Text.splitAt '\n' t), Code.hidesFence line = false := by
  obtain ⟨ms, hms, hlines⟩ := Code.exists_coveredLines (covered_maskPieces (Code.pieces t) v)
  have hne : ms ≠ [] := hlines.ne_nil (Text.splitAt_ne_nil '\n' t)
  have hfeeds : ∀ m ∈ ms, '\n' ∉ m :=
    hlines.not_mem_newline fun line hline => Text.not_mem_of_mem_splitAt t hline
  rw [mask, hms, Code.pieces, Text.splitAt_join hne hfeeds]
  exact hlines.all_isProse_iff

/-- A masked text holds no code, and masking it again changes neither the text nor any vault, exactly
when no line outside the fences hides a fence behind its inline spans. -/
theorem mask_mask_iff (v : Vault) (t : Text) :
    (Code.spans (v.mask t).1 = [] ↔
      ∀ line ∈ Code.openLines (Text.splitAt '\n' t), Code.hidesFence line = false) ∧
    ∀ w : Vault, w.mask (v.mask t).1 = ((v.mask t).1, w) ↔
      ∀ line ∈ Code.openLines (Text.splitAt '\n' t), Code.hidesFence line = false := by
  have hprose := all_isProse_pieces_mask_iff v t
  refine ⟨?_, fun w => ?_⟩
  · rw [Code.spans, Code.spansFrom_eq_nil_iff, hprose]
  · rw [mask_eq_self_iff, hprose]

/-- A run of three backticks in front of an inline span is no code, and after masking it is. -/
theorem spans_mask_hidden_fence :
    (∀ c ∈ "``` `a`".toList, c ≠ placeholderOpen ∧ c ≠ placeholderClose) ∧
      Code.spans (Vault.empty.mask "``` `a`".toList).1 ≠ [] := by
  have hunmarked : ("``` `a`".toList.all fun c =>
      c ≠ placeholderOpen ∧ c ≠ placeholderClose) = true := by decide +kernel
  refine ⟨fun c hc => ?_, by decide +kernel⟩
  exact of_decide_eq_true (List.all_eq_true.1 hunmarked c hc)

end Vault
end Stencil
