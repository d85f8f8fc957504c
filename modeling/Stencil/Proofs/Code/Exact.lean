import Stencil.Proofs.Code.Detection

/-! # Code spans are found exactly

The ranges that are found stand one behind the other, each of them is a span by the rules alone
(`isSpan_of_mem_spans`), and nothing is missed: a line that opens a fence lies within a range, and so does
every run of backticks that has a partner behind it on its line (`spans_exact`). -/
set_option autoImplicit false
namespace Stencil.Code

open Text (StartsLine EndsLine unlines unlines_eq_join)

/-! ## Ranges of pieces -/

theorem mem_spansFrom_iff {r : Nat × Nat} : ∀ {ps : List Piece} {offset : Nat}, r ∈ spansFrom offset ps ↔
    ∃ bs g as, ps = bs ++ .code g :: as ∧
      r = (offset + Text.size (source bs), offset + Text.size (source bs) + Text.size g) := by
  intro ps
  induction ps with
  | nil => intro offset; simp [spansFrom]
  | cons piece ps ih =>
      intro offset
      constructor
      · intro hr
        cases piece with
        | prose s =>
            obtain ⟨bs, g, as, rfl, rfl⟩ := ih.1 hr
            exact ⟨.prose s :: bs, g, as, rfl, by simp [source_cons_prose, Nat.add_assoc]⟩
        | code s =>
            rcases List.mem_cons.1 hr with rfl | hr
            · exact ⟨[], s, ps, rfl, by simp [source]⟩
            · obtain ⟨bs, g, as, rfl, rfl⟩ := ih.1 hr
              exact ⟨.code s :: bs, g, as, rfl, by simp [source_cons_code, Nat.add_assoc]⟩
      · rintro ⟨bs, g, as, heq, rfl⟩
        cases bs with
        | nil =>
            obtain ⟨rfl, rfl⟩ := List.cons.inj heq
            simp [spansFrom, source]
        | cons _ bs =>
            obtain ⟨rfl, rfl⟩ := List.cons.inj heq
            cases piece with
            | prose s => exact ih.2 ⟨bs, g, as, rfl, by simp [source_cons_prose, Nat.add_assoc]⟩
            | code s =>
                refine List.mem_cons_of_mem _ (ih.2 ⟨bs, g, as, rfl, ?_⟩)
                simp [source_cons_code, Nat.add_assoc]

theorem le_of_mem_spansFrom {r : Nat × Nat} {ps : List Piece} {offset : Nat} (hr : r ∈ spansFrom offset ps) :
    offset ≤ r.1 := by
  obtain ⟨bs, g, as, -, rfl⟩ := mem_spansFrom_iff.1 hr
  simp

theorem pairwise_spansFrom : ∀ (ps : List Piece) (offset : Nat),
    (spansFrom offset ps).Pairwise fun r s => r.2 ≤ s.1 := by
  intro ps
  induction ps with
  | nil => intro offset; exact .nil
  | cons piece ps ih =>
      intro offset
      cases piece with
      | prose s => exact ih _
      | code g => exact .cons (fun _ hr => le_of_mem_spansFrom hr) (ih _)

theorem IsSpan.begins {x g y : Text} (h : IsSpan x g y) : Begins g := by
  cases h with
  | closed _ _ _ hopen =>
      exact begins_join (begins_of_fenceOpening? (fenceOpening?_eq_some_iff.2 hopen)) _
  | unclosed _ _ hopen =>
      exact begins_join (begins_of_fenceOpening? (fenceOpening?_eq_some_iff.2 hopen)) _
  | inline _ hrun => exact (begins_ticks hrun.1).append _

theorem Begins.size_pos {g : Text} (h : Begins g) : 0 < Text.size g := by
  obtain ⟨b, r, rfl, -⟩ := h
  have hlength := Text.length_le_size (b ++ '`' :: r)
  rw [List.length_append, List.length_cons] at hlength
  omega

/-! ## Code around a stretch of text -/

/-- The stretch `g` that stands behind `x` lies within one code of the pieces. -/
def Covers (ps : List Piece) (x g : Text) : Prop :=
  ∃ bs h as u w, ps = bs ++ .code h :: as ∧ x = source bs ++ u ∧ h = u ++ (g ++ w)

section

variable {ps : List Piece} {x g : Text}

theorem Covers.prepend (h : Covers ps x g) (qs : List Piece) : Covers (qs ++ ps) (source qs ++ x) g := by
  obtain ⟨bs, h, as, u, w, rfl, rfl, rfl⟩ := h
  exact ⟨qs ++ bs, _, as, u, w, by simp, by simp [source_append], rfl⟩

theorem Covers.append (h : Covers ps x g) (qs : List Piece) : Covers (ps ++ qs) x g := by
  obtain ⟨bs, h, as, u, w, rfl, rfl, rfl⟩ := h
  exact ⟨bs, _, as ++ qs, u, w, by simp, rfl, rfl⟩

theorem Covers.within {a b : Text} (h : Covers ps x (a ++ (g ++ b))) : Covers ps (x ++ a) g := by
  obtain ⟨bs, h, as, u, w, rfl, rfl, rfl⟩ := h
  exact ⟨bs, _, as, u ++ a, b ++ w, rfl, by simp, by simp⟩

theorem Covers.exists_range (h : Covers ps x g) :
    ∃ r ∈ spansFrom 0 ps, r.1 ≤ Text.size x ∧ Text.size (x ++ g) ≤ r.2 := by
  obtain ⟨bs, h, as, u, w, rfl, rfl, rfl⟩ := h
  refine ⟨_, mem_spansFrom_iff.2 ⟨bs, _, as, rfl, rfl⟩, ?_, ?_⟩
  · simp
  · simp only [Text.size_append]
    omega

end

/-! ## Runs with a partner -/

/-- Of two runs of one length on a line the first is code, by induction along the pieces of the line. -/
theorem covers_of_twin {n : Nat} {bs cs : List Run} {rs : List Run} : ∀ {as : List Run},
    rs = as ++ .ticks n :: (bs ++ .ticks n :: cs) →
    Covers (inlinePieces rs) (as.flatMap Run.source) (ticks n) := by
  fun_induction inlinePieces rs with
  | case1 => intro as h; simp at h
  | case2 s rest ih =>
      intro as h
      cases as with
      | nil => cases (List.cons.inj h).1
      | cons _ as =>
          obtain ⟨rfl, hrest⟩ := List.cons.inj h
          simpa [source, Piece.source, Run.source] using (ih hrest).prepend [.prose s]
  | case3 m rest inside after hclose ih =>
      intro as h
      cases as with
      | nil =>
          obtain ⟨hrun, -⟩ := List.cons.inj h
          obtain rfl := Run.ticks.inj hrun
          exact ⟨[], _, _, [], inside.flatMap Run.source, rfl, rfl, rfl⟩
      | cons _ as =>
          obtain ⟨rfl, hrest⟩ := List.cons.inj h
          rw [closeInline?_eq hclose] at hrest
          rcases exists_of_append_eq hrest with ⟨e, rfl, -⟩ | ⟨e, rfl, hafter⟩
          · refine ⟨[], _, _, ticks m ++ as.flatMap Run.source, e.flatMap Run.source, rfl, rfl, ?_⟩
            simp [Run.source]
          · have hlater := (ih hafter).prepend [.code ((Run.ticks m).source ++ inside.flatMap Run.source)]
            simpa [source, Piece.source] using hlater
  | case4 m rest hclose ih =>
      intro as h
      cases as with
      | nil =>
          obtain ⟨hrun, rfl⟩ := List.cons.inj h
          obtain rfl := Run.ticks.inj hrun
          exact absurd (by simp) ((closeInline?_eq_none_iff m _).1 hclose)
      | cons _ as =>
          obtain ⟨rfl, hrest⟩ := List.cons.inj h
          simpa [source, Piece.source] using (ih hrest).prepend [.prose (Run.ticks m).source]

/-! ## Lines -/

theorem exists_join_eq (ls : List Text) (line : Text) (ms : List Text) :
    ∃ w, Text.join ['\n'] (ls ++ line :: ms) = unlines ls ++ (line ++ w) := by
  rw [Text.join_append_eq ls (by simp)]
  by_cases hms : ms = []
  · subst hms
    exact ⟨[], by simp [Text.join, List.intercalate]⟩
  · exact ⟨_, by rw [join_cons_ne_nil line hms]⟩

/-- A line either lies within a fence or is searched for inline spans, by induction along the fences. -/
theorem covers_or_inline {line : Text} {after lines : List Text} : ∀ {before : List Text},
    lines = before ++ line :: after →
    Covers (linePieces lines) (unlines before) line ∨
      fenceOpening? line = none ∧ ∃ bs as, linePieces lines = bs ++ (inlinePieces (runs line) ++ as) ∧
        source bs = unlines before := by
  fun_induction linePieces lines with
  | case1 => intro before h; simp at h
  | case2 first rest n hn i hi ih =>
      intro before h
      have hsplit : (first :: rest.take (i + 1)) ++ rest.drop (i + 1) = before ++ line :: after := by
        rw [List.cons_append, List.take_append_drop, h]
      rcases exists_of_append_eq hsplit with ⟨e, hbody, -⟩ | ⟨e, rfl, hdrop⟩
      · obtain ⟨w, hw⟩ := exists_join_eq before line e
        exact .inl ⟨[], _, _, unlines before, w, rfl, rfl, by rw [hbody, hw]⟩
      · have hend : ¬rest.length ≤ i + 1 := by
          intro hle
          rw [List.drop_eq_nil_of_le hle] at hdrop
          simp at hdrop
        have hsource : source [.code (Text.join ['\n'] (first :: rest.take (i + 1))), .prose ['\n']] =
            unlines (first :: rest.take (i + 1)) := by
          rw [unlines_eq_join (by simp)]
          rfl
        have hfront : unlines (first :: rest.take (i + 1) ++ e) =
            unlines (first :: rest.take (i + 1)) ++ unlines e := Text.unlines_append _ _
        rw [if_neg hend, hfront, ← hsource]
        rcases ih hend hdrop with hcovers | ⟨hfence, bs, as, hpieces, hbs⟩
        · exact .inl (hcovers.prepend [_, _])
        · refine .inr ⟨hfence, _ :: _ :: bs, as, by rw [hpieces]; rfl, ?_⟩
          rw [← hbs]
          simp [source]
  | case3 first rest n hn hi =>
      intro before h
      obtain ⟨w, hw⟩ := exists_join_eq before line after
      exact .inl ⟨[], _, _, unlines before, w, rfl, rfl, by rw [h, hw]⟩
  | case4 first rest hn ih =>
      intro before h
      cases before with
      | nil =>
          obtain ⟨rfl, rfl⟩ := List.cons.inj h
          exact .inr ⟨hn, [], _, rfl, rfl⟩
      | cons _ before =>
          obtain ⟨rfl, hrest⟩ := List.cons.inj h
          have hend : ¬rest.isEmpty = true := by simp [hrest]
          have hpieces : ∀ ps : List Piece, inlinePieces (runs first) ++ .prose ['\n'] :: ps =
              (inlinePieces (runs first) ++ [.prose ['\n']]) ++ ps := by simp
          have hfront : unlines (first :: before) =
              source (inlinePieces (runs first) ++ [.prose ['\n']]) ++ unlines before := by
            rw [source_append, source_inlinePieces, source_runs]
            simp [unlines, source, Piece.source]
          rw [if_neg hend, hfront, hpieces]
          rcases ih hrest with hcovers | ⟨hfence, bs, as, hrestPieces, hbs⟩
          · exact .inl (hcovers.prepend _)
          · refine .inr ⟨hfence, (inlinePieces (runs first) ++ [.prose ['\n']]) ++ bs, as, ?_, ?_⟩
            · rw [hrestPieces, List.append_assoc _ bs]
            · rw [source_append _ bs, hbs]

/-! ## All spans -/

theorem isSpan_of_mem_spans {t : Text} {r : Nat × Nat} (hr : r ∈ spans t) :
    ∃ x g y, t = x ++ (g ++ y) ∧ r = (Text.size x, Text.size (x ++ g)) ∧ IsSpan x g y := by
  obtain ⟨bs, g, as, hpieces, rfl⟩ := mem_spansFrom_iff.1 hr
  refine ⟨source bs, g, source as, ?_, by simp, ?_⟩
  · rw [← source_pieces t, hpieces, source_append, source_cons_code]
  · exact isSpan_of_linePieces (fun _ hl => Text.not_mem_of_mem_splitAt t hl) (.inl rfl) hpieces

def Within (t x g : Text) : Prop := ∃ r ∈ spans t, r.1 ≤ Text.size x ∧ Text.size (x ++ g) ≤ r.2

theorem within_of_opensFence {x line y : Text} {n : Nat} (hx : StartsLine x) (hline : '\n' ∉ line)
    (hy : EndsLine y) (hopen : OpensFence n line) : Within (x ++ (line ++ y)) x line := by
  obtain ⟨before, rfl, hlines⟩ := Text.exists_unlines hx
  obtain ⟨after, hafter⟩ := Text.exists_splitAt_line hline hy
  rcases covers_or_inline ((hlines _).trans (congrArg _ hafter)) with hcovers | ⟨hfence, -⟩
  · exact hcovers.exists_range
  · rw [fenceOpening?_eq_some_iff.2 hopen] at hfence
    cases hfence

theorem IsRun.of_append {a b x y : Text} {n : Nat} (h : IsRun (x ++ a) n (b ++ y)) : IsRun a n b :=
  ⟨h.1, getLast?_of_append h.2.1, head?_of_append h.2.2⟩

/-- The first of two runs of one length on a line lies within code. -/
theorem covers_of_twin_line {lines before after : List Text} {a mid b : Text} {n : Nat}
    (h : lines = before ++ (a ++ (ticks n ++ (mid ++ (ticks n ++ b)))) :: after)
    (hfirst : IsRun a n (mid ++ (ticks n ++ b))) (hsecond : IsRun mid n b) :
    Covers (linePieces lines) (unlines before ++ a) (ticks n) := by
  rcases covers_or_inline h with hcovers | ⟨-, bs, as, hpieces, hbs⟩
  · exact hcovers.within
  · -- both runs are among the runs of the line
    obtain ⟨front, later, hruns, rfl, hlater⟩ := exists_run
      (maximal_runs (a ++ (ticks n ++ (mid ++ (ticks n ++ b))))) (source_runs _) hfirst
    have hmaximal : Maximal later := by
      have h := maximal_runs (front.flatMap Run.source ++ (ticks n ++ (mid ++ (ticks n ++ b))))
      rw [hruns] at h
      exact (maximal_of_append h).2.2
    obtain ⟨between, behind, rfl, -, -⟩ := exists_run hmaximal hlater hsecond
    rw [hpieces, ← hbs]
    exact ((covers_of_twin hruns).append as).prepend bs

theorem within_of_twin {x mid y : Text} {n : Nat} (hmid : '\n' ∉ mid)
    (hfirst : IsRun x n (mid ++ (ticks n ++ y))) (hsecond : IsRun (x ++ (ticks n ++ mid)) n y) :
    Within (x ++ (ticks n ++ (mid ++ (ticks n ++ y)))) x (ticks n) := by
  obtain ⟨x, a, rfl, hx, ha⟩ := Text.exists_line_end x
  obtain ⟨b, y, rfl, hy, hb⟩ := Text.exists_line_start y
  have hticks : '\n' ∉ ticks n := fun hmem => absurd (List.eq_of_mem_replicate hmem) (by decide)
  have hline : '\n' ∉ a ++ (ticks n ++ (mid ++ (ticks n ++ b))) := by
    simp only [List.mem_append, not_or]
    exact ⟨ha, hticks, hmid, hticks, hb⟩
  obtain ⟨before, rfl, hlines⟩ := Text.exists_unlines hx
  obtain ⟨after, hafter⟩ := Text.exists_splitAt_line hline hy
  have hfirst' : IsRun a n (mid ++ (ticks n ++ b)) := by
    refine IsRun.of_append (x := unlines before) (y := y) ?_
    simpa using hfirst
  have hsecond' : IsRun mid n b := by
    refine IsRun.of_append (x := unlines before ++ a ++ ticks n) (y := y) ?_
    simpa using hsecond
  have htext : unlines before ++ a ++ (ticks n ++ (mid ++ (ticks n ++ (b ++ y)))) =
      unlines before ++ (a ++ (ticks n ++ (mid ++ (ticks n ++ b))) ++ y) := by simp
  rw [htext]
  exact (covers_of_twin_line ((hlines _).trans (congrArg _ hafter)) hfirst' hsecond').exists_range

/-- The ranges of code stand one behind the other, each of them is a span, and neither a line that opens a
fence nor a run of backticks with a partner behind it on its line is left outside of them. -/
theorem spans_exact (t : Text) :
    (spans t).Pairwise (fun r s => r.2 ≤ s.1) ∧
    (∀ r ∈ spans t, r.1 < r.2 ∧
      ∃ x g y, t = x ++ (g ++ y) ∧ r = (Text.size x, Text.size (x ++ g)) ∧ IsSpan x g y) ∧
    (∀ x line y n, t = x ++ (line ++ y) → StartsLine x → EndsLine y → '\n' ∉ line → OpensFence n line →
      Within t x line) ∧
    ∀ x mid y n, t = x ++ (ticks n ++ (mid ++ (ticks n ++ y))) → '\n' ∉ mid →
      IsRun x n (mid ++ (ticks n ++ y)) → IsRun (x ++ (ticks n ++ mid)) n y → Within t x (ticks n) := by
  refine ⟨pairwise_spansFrom _ 0, fun r hr => ?_, ?_, ?_⟩
  · obtain ⟨x, g, y, rfl, rfl, hspan⟩ := isSpan_of_mem_spans hr
    refine ⟨?_, x, g, y, rfl, rfl, hspan⟩
    have hpos := hspan.begins.size_pos
    simp only [Text.size_append]
    omega
  · rintro x line y n rfl hx hy hline hopen
    exact within_of_opensFence hx hline hy hopen
  · rintro x mid y n rfl hmid hfirst hsecond
    exact within_of_twin hmid hfirst hsecond

end Stencil.Code
