import Stencil.Proofs.Code.Exact
import Stencil.Proofs.Code.RoundTrip
import Stencil.Proofs.Files.Blocks
import Stencil.Proofs.Text.Order

/-! # The code spans of a listing

A listing has one code span for each file, in the order of the paths: the block of the file up to its closing
fence, whatever the file holds. Between the spans and behind the last one there are line feeds only
(`spans_format`). -/
set_option autoImplicit false
namespace Stencil

namespace Code

/-- The range of a code that stands among pieces. -/
theorem getElem?_spansFrom (g : Text) (as : List Piece) : ∀ (bs : List Piece) (offset : Nat),
    (spansFrom offset (bs ++ .code g :: as))[bs.countP fun piece => !piece.isProse]? =
      some (offset + Text.size (source bs), offset + Text.size (source bs ++ g)) := by
  intro bs
  induction bs with
  | nil => intro offset; simp [spansFrom, source]
  | cons piece bs ih =>
      intro offset
      cases piece with
      | prose s =>
          rw [List.countP_cons_of_neg (by simp [Piece.isProse]), List.cons_append, spansFrom, ih]
          simp [source_cons_prose, Nat.add_assoc]
      | code s =>
          rw [List.countP_cons_of_pos (by simp [Piece.isProse]), List.cons_append, spansFrom,
            List.getElem?_cons_succ, ih]
          simp [source_cons_code, Nat.add_assoc]

/-- A character of the source is in a range or in prose. -/
theorem in_range_or_prose {c : Char} {y : Text} : ∀ {ps : List Piece} {x : Text} (offset : Nat),
    source ps = x ++ c :: y →
      (∃ r ∈ spansFrom offset ps, r.1 ≤ offset + Text.size x ∧ offset + Text.size x < r.2) ∨
        ∃ s, .prose s ∈ ps ∧ c ∈ s := by
  intro ps
  induction ps with
  | nil => intro x offset h; simp [source] at h
  | cons piece ps ih =>
      intro x offset h
      have hsource : piece.source ++ source ps = x ++ c :: y := by rw [← h]; rfl
      rcases exists_of_append_eq hsource with ⟨e, hpiece, -⟩ | ⟨e, rfl, hlater⟩
      · cases piece with
        | prose s =>
            have hs : s = x ++ c :: e := hpiece
            exact .inr ⟨s, List.mem_cons_self .., by simp [hs]⟩
        | code s =>
            have hs : s = x ++ c :: e := hpiece
            refine .inl ⟨(offset, offset + Text.size s), List.mem_cons_self .., Nat.le_add_right .., ?_⟩
            have hpos := c.utf8Size_pos
            simp only [hs, Text.size_append, Text.size_cons]
            omega
      · have hmoved : offset + Text.size (piece.source ++ e) = offset + Text.size piece.source + Text.size e := by
          rw [Text.size_append, Nat.add_assoc]
        rw [hmoved]
        rcases ih (offset + Text.size piece.source) hlater with ⟨r, hr, hrange⟩ | ⟨s, hs, hc⟩
        · refine .inl ⟨r, ?_, hrange⟩
          cases piece with
          | prose s => exact hr
          | code s => exact List.mem_cons_of_mem _ hr
        · exact .inr ⟨s, List.mem_cons_of_mem _ hs, hc⟩

end Code

namespace Listing

open Code (spans spansFrom pieces source)

/-! ## The order of the paths -/

def Precedes (p q : Path) : Prop := Text.before p q = true ∧ p ≠ q

/-- The listing is a map: its paths are in ascending order, each stands once. -/
def Ascending (files : Listing) : Prop := files.Pairwise fun f g => Precedes f.1 g.1

theorem Precedes.trans {p q r : Path} (hpq : Precedes p q) (hqr : Precedes q r) : Precedes p r := by
  refine ⟨Text.before_trans hpq.1 hqr.1, ?_⟩
  rintro rfl
  exact hpq.2 (Text.before_antisymm hpq.1 hqr.1)

theorem Precedes.asymm {p q : Path} (h : Precedes p q) : ¬Precedes q p :=
  fun hqp => h.2 (Text.before_antisymm h.1 hqp.1)

theorem mem_insert {path : Path} {text : Text} {f : Path × Text} : ∀ {files : Listing},
    f ∈ files.insert path text → f = (path, text) ∨ f ∈ files := by
  intro files
  induction files with
  | nil => intro h; simpa [insert] using h
  | cons file files ih =>
      obtain ⟨p, t⟩ := file
      intro h
      rw [insert] at h
      split at h
      next hp =>
          rcases List.mem_cons.1 h with rfl | h
          · exact .inl (by rw [hp])
          · exact .inr (List.mem_cons_of_mem _ h)
      next =>
          split at h
          · exact (List.mem_cons.1 h).imp_right id
          · rcases List.mem_cons.1 h with rfl | h
            · exact .inr (List.mem_cons_self ..)
            · exact (ih h).imp_right (List.mem_cons_of_mem _)

theorem ascending_insert (path : Path) (text : Text) : ∀ {files : Listing}, Ascending files →
    Ascending (files.insert path text) := by
  intro files
  induction files with
  | nil => intro _; exact List.pairwise_singleton ..
  | cons file files ih =>
      obtain ⟨p, t⟩ := file
      intro h
      obtain ⟨hfirst, hrest⟩ := List.pairwise_cons.1 h
      rw [insert]
      split
      next hp => exact .cons hfirst hrest
      next hne =>
          split
          next hbefore =>
              have hpath : Precedes path p := ⟨hbefore, Ne.symm hne⟩
              refine .cons (fun f hf => ?_) h
              rcases List.mem_cons.1 hf with rfl | hf
              · exact hpath
              · exact hpath.trans (hfirst f hf)
          next hbefore =>
              refine .cons (fun f hf => ?_) (ih hrest)
              rcases mem_insert hf with rfl | hf
              · exact ⟨Text.before_total (by simpa using hbefore), hne⟩
              · exact hfirst f hf

theorem ascending_ofList (files : List (Path × Text)) : Ascending (ofList files) := by
  have hfold : ∀ {listing : Listing}, Ascending listing →
      Ascending (files.foldl (fun listing file => listing.insert file.1 file.2) listing) := by
    induction files with
    | nil => exact id
    | cons file files ih => exact fun h => ih (ascending_insert _ _ h)
  exact hfold .nil

/-- A file whose path comes first stands first. -/
theorem Ascending.lt_of_precedes {files : Listing} (h : Ascending files) {i j : Nat} {f g : Path × Text}
    (hf : files[i]? = some f) (hg : files[j]? = some g) (hpath : Precedes f.1 g.1) : i < j := by
  obtain ⟨hi, rfl⟩ := List.getElem?_eq_some_iff.1 hf
  obtain ⟨hj, rfl⟩ := List.getElem?_eq_some_iff.1 hg
  rcases Nat.lt_trichotomy i j with hij | rfl | hji
  · exact hij
  · exact absurd rfl hpath.2
  · exact absurd (List.pairwise_iff_getElem.1 h j i hj hi hji) hpath.asymm

/-! ## The spans -/

theorem pieces_nil : pieces [] = [] := by
  simp [pieces, Text.splitAt, Code.linePieces, Code.fenceOpening?, Code.leadingTicks, Code.runs, Code.inlinePieces]

theorem spans_format_eq {files : Listing} (hpaths : ∀ file ∈ files, Titles file.1) :
    source (formatPieces [] files) = format files ∧
      spans (format files) = spansFrom 0 (formatPieces [] files) := by
  have hpieces : pieces (format files) = formatPieces [] files := by
    by_cases hfiles : files = []
    · subst hfiles
      exact pieces_nil
    · simpa [pieces_nil] using pieces_format [] (b := []) hfiles hpaths (by simp)
  exact ⟨by rw [← hpieces, Code.source_pieces], by rw [spans, hpieces]⟩

/-- The code of a file is behind those of the files before it, by induction from the first file. -/
theorem exists_formatPieces_eq {path text : Text} : ∀ {files : Listing} {i : Nat},
    files[i]? = some (path, text) → ∃ bs as, formatPieces [] files = bs ++ .code (blockCode path text) :: as ∧
      bs.countP (fun piece => !piece.isProse) = i := by
  intro files
  induction files with
  | nil => intro i h; cases h
  | cons file files ih =>
      intro i h
      obtain ⟨p, t⟩ := file
      cases i with
      | zero =>
          obtain ⟨rfl, rfl⟩ := Prod.mk.inj (Option.some.inj h)
          exact ⟨[], _, rfl, rfl⟩
      | succ i =>
          obtain ⟨bs, as, hlater, hcount⟩ := ih (i := i) (by simpa using h)
          have hfiles : files ≠ [] := by
            rintro rfl
            cases h
          refine ⟨.code (blockCode p t) :: .prose ['\n'] :: .prose ['\n'] :: bs, as, ?_, ?_⟩
          · rw [formatPieces, if_neg hfiles, hlater]
            rfl
          · rw [List.countP_cons_of_pos (by rfl), List.countP_cons_of_neg (by simp [Code.Piece.isProse]),
              List.countP_cons_of_neg (by simp [Code.Piece.isProse]), hcount]

/-- The first span begins where the listing begins. -/
theorem exists_span_of_ne_nil {files : Listing} (h : files ≠ []) :
    ∃ r ∈ spansFrom 0 (formatPieces [] files), r.1 = 0 := by
  obtain ⟨⟨path, text⟩, files, rfl⟩ := List.exists_cons_of_ne_nil h
  exact ⟨_, List.mem_cons_self .., rfl⟩

/-- A listing has one code span for each file, in the order of the paths. It is the whole block of the file,
from its opening fence to its closing fence, and what stands behind the spans is line feeds. -/
theorem spans_format {files : Listing} (hascending : Ascending files)
    (hpaths : ∀ file ∈ files, Titles file.1) :
    (spans (format files)).length = files.length ∧
    (∀ (i : Nat) (path : Path) (text : Text), files[i]? = some (path, text) →
      ∃ x y, format files = x ++ (blockCode path text ++ y) ∧
        (spans (format files))[i]? = some (Text.size x, Text.size (x ++ blockCode path text))) ∧
    (∀ (i j : Nat) (f g : Path × Text) (r s : Nat × Nat), files[i]? = some f → files[j]? = some g →
      (spans (format files))[i]? = some r → (spans (format files))[j]? = some s →
      Precedes f.1 g.1 → r.2 ≤ s.1) ∧
    ∀ x c y, format files = x ++ c :: y →
      (∀ r ∈ spans (format files), Text.size x < r.1 ∨ r.2 ≤ Text.size x) →
      c = '\n' ∧ ∃ r ∈ spans (format files), r.2 ≤ Text.size x := by
  obtain ⟨hsource, hspans⟩ := spans_format_eq hpaths
  rw [hspans]
  refine ⟨?_, ?_, ?_, ?_⟩
  · rw [Vault.length_spansFrom, countP_formatPieces]
  · intro i path text hfile
    obtain ⟨bs, as, hpieces, rfl⟩ := exists_formatPieces_eq hfile
    refine ⟨source bs, source as, ?_, ?_⟩
    · rw [← hsource, hpieces, Code.source_append, Code.source_cons_code]
    · rw [hpieces, Code.getElem?_spansFrom]
      simp
  · intro i j f g r s hf hg hr hs hpath
    obtain ⟨hi, rfl⟩ := List.getElem?_eq_some_iff.1 hr
    obtain ⟨hj, rfl⟩ := List.getElem?_eq_some_iff.1 hs
    have hij : i < j := hascending.lt_of_precedes hf hg hpath
    exact List.pairwise_iff_getElem.1 (Code.pairwise_spansFrom _ 0) i j hi hj hij
  · intro x c y htext houtside
    have hfiles : files ≠ [] := by
      rintro rfl
      simp [format, Text.join] at htext
    constructor
    · rcases Code.in_range_or_prose 0 (hsource.trans htext) with ⟨r, hr, hrange⟩ | ⟨s, hs, hc⟩
      · have := houtside r hr
        omega
      · rw [eq_of_prose_mem_formatPieces hs] at hc
        exact List.mem_singleton.1 hc
    · obtain ⟨r, hr, hzero⟩ := exists_span_of_ne_nil hfiles
      exact ⟨r, hr, (houtside r hr).resolve_left (by omega)⟩

def fencedFiles : List (Path × Text) :=
  [(['b'], ['`', '`', '`', '\n', '`', '`', '`', '`']), ([], ['x', '\r'])]

theorem spans_format_fenced :
    format (ofList fencedFiles) = "```\nx\r\n```\n\n`````b\n```\n````\n`````\n".toList ∧
    spans (format (ofList fencedFiles)) = [(0, 10), (12, 33)] ∧
    (spans (format (ofList fencedFiles))).length = 2 := by
  obtain ⟨hlength, -⟩ := spans_format (ascending_ofList fencedFiles) (by unfold Titles; decide +kernel)
  exact ⟨by decide +kernel, by decide +kernel, hlength.trans (by decide +kernel)⟩

end Listing
end Stencil
