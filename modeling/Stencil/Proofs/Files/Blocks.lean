import Stencil.Files.Listing
import Stencil.Proofs.Code.Cover
import Stencil.Proofs.Code.Fences
import Stencil.Proofs.Text.Lines

/-! # The blocks of a listing

The fence around a text is longer than all runs of backticks in it, so that no line of the text closes it
(`not_closesFence_of_unlines`). A listing that starts a line, blanks aside, is therefore one piece of code for
each file, and what stands behind it is read as if it stood alone (`pieces_format`). -/
set_option autoImplicit false
namespace Stencil.Listing

open Code (pieces linePieces OpensFence ClosesFence)
open Text (StartsLine unlines)

/-! ## Runs -/

theorem longestRun_mono (c : Char) (t : Text) : ∀ {n k : Nat}, n ≤ k →
    longestRun c n t ≤ longestRun c k t := by
  induction t with
  | nil => intro n k h; exact h
  | cons d t ih =>
      intro n k h
      simp only [longestRun]
      by_cases hd : d = c
      · rw [if_pos hd, if_pos hd]
        exact ih (Nat.succ_le_succ h)
      · rw [if_neg hd, if_neg hd]
        omega

theorem le_longestRun_append (c : Char) (t : Text) : ∀ (s : Text) (n : Nat),
    longestRun c 0 t ≤ longestRun c n (s ++ t) := by
  intro s
  induction s with
  | nil => intro n; exact longestRun_mono c t (Nat.zero_le n)
  | cons d s ih =>
      intro n
      simp only [List.cons_append, longestRun]
      by_cases hd : d = c
      · rw [if_pos hd]
        exact ih (n + 1)
      · rw [if_neg hd]
        exact Nat.le_trans (ih 0) (Nat.le_max_right ..)

theorem longestRun_replicate (c : Char) (t : Text) : ∀ m n : Nat,
    longestRun c n (List.replicate m c ++ t) = longestRun c (n + m) t := by
  intro m
  induction m with
  | zero => intro n; rfl
  | succ m ih =>
      intro n
      rw [List.replicate_succ, List.cons_append, longestRun, if_pos rfl, ih]
      congr 1
      omega

theorem longestRun_concat {c d : Char} (hd : d ≠ c) : ∀ (t : Text) (n : Nat),
    longestRun c n (t ++ [d]) = longestRun c n t := by
  intro t
  induction t with
  | nil => intro n; simp [longestRun, hd]
  | cons e t ih => intro n; simp only [List.cons_append, longestRun, ih]

/-- A text has no longer run than its longest one. -/
theorem le_longestRun_of_infix {c : Char} {m : Nat} {t : Text} (h : List.replicate m c <:+: t) :
    m ≤ longestRun c 0 t := by
  obtain ⟨s, u, rfl⟩ := h
  rw [List.append_assoc]
  calc
    m ≤ longestRun c (0 + m) u := by rw [Nat.zero_add]; exact le_longestRun c m u
    _ = longestRun c 0 (List.replicate m c ++ u) := (longestRun_replicate c u m 0).symm
    _ ≤ longestRun c 0 (s ++ (List.replicate m c ++ u)) := le_longestRun_append c _ s 0

/-! ## Fences -/

def fenceLength (text : Text) : Nat := max (longestRun '`' 0 text) 2 + 1

theorem fence_eq (text : Text) : fence text = List.replicate (fenceLength text) '`' := rfl

theorem three_le_fenceLength (text : Text) : 3 ≤ fenceLength text := by
  unfold fenceLength
  omega

theorem endLine_cases (text : Text) : endLine text = text ∨ endLine text = text ++ ['\n'] := by
  unfold endLine
  split
  · exact .inl rfl
  · exact .inr rfl

theorem startsLine_endLine (text : Text) : StartsLine (endLine text) := by
  unfold endLine
  by_cases h : text = [] ∨ Text.endsWith text ['\n'] = true
  · rw [if_pos h]
    refine h.imp_right fun hend => ?_
    obtain ⟨s, rfl⟩ := List.isSuffixOf_iff_suffix.1 hend
    simp
  · rw [if_neg h]
    exact .inr (by simp)

/-- No line of a text closes the fence around it. -/
theorem not_closesFence_of_unlines {text l : Text} {ls : List Text} (h : unlines ls = endLine text)
    (hl : l ∈ ls) : ¬ClosesFence (fenceLength text) l := by
  rintro ⟨b, m, after, rfl, -, -, hm, -⟩
  obtain ⟨front, back, rfl⟩ := List.append_of_mem hl
  have hrun : List.replicate m '`' <:+: endLine text := by
    rw [← h]
    exact ⟨unlines front ++ b, after ++ ('\n' :: unlines back), by simp [unlines]⟩
  have hle := le_longestRun_of_infix hrun
  have hend : longestRun '`' 0 (endLine text) = longestRun '`' 0 text := by
    rcases endLine_cases text with heq | heq
    · rw [heq]
    · rw [heq, longestRun_concat (by decide)]
  rw [hend] at hle
  unfold fenceLength at hm
  omega

theorem opensFence_title {b path : Text} (hb : ∀ c ∈ b, isLineBlank c = true) (hpath : '`' ∉ path)
    (text : Text) : OpensFence (fenceLength text) (b ++ (fence text ++ path)) :=
  ⟨b, path, by rw [fence_eq], hb, three_le_fenceLength text, hpath⟩

theorem closesFence_fence (text : Text) : ClosesFence (fenceLength text) (fence text) :=
  ⟨[], fenceLength text, [], by simp [fence_eq], by simp, three_le_fenceLength text, Nat.le_refl _, by simp⟩

/-! ## Pieces -/

/-- The path can stand behind an opening fence. -/
def Titles (path : Text) : Prop := '`' ∉ path ∧ '\n' ∉ path

def blockCode (path text : Text) : Text := fence text ++ (path ++ '\n' :: (endLine text ++ fence text))

theorem not_mem_title {b path : Text} (hb : ∀ c ∈ b, isLineBlank c = true) (hpath : '\n' ∉ path)
    (text : Text) : '\n' ∉ b ++ (fence text ++ path) := by
  simp only [List.mem_append, not_or]
  refine ⟨fun hmem => absurd (hb _ hmem) (by decide), fun hmem => ?_, hpath⟩
  exact absurd (List.eq_of_mem_replicate hmem) (by decide)

/-- The lines of a block: its title, the lines of the text and the closing fence. -/
theorem exists_splitAt_block {b path : Text} (hb : ∀ c ∈ b, isLineBlank c = true) (hpath : '\n' ∉ path)
    (text rest : Text) : ∃ ls, unlines ls = endLine text ∧
      Text.splitAt '\n' (b ++ (block path text ++ rest)) =
        (b ++ (fence text ++ path)) :: (ls ++ fence text :: Text.splitAt '\n' rest) := by
  obtain ⟨ls, hls, hsplit⟩ := Text.exists_unlines (startsLine_endLine text)
  refine ⟨ls, hls, ?_⟩
  have hfence : '\n' ∉ fence text := fun hmem => absurd (List.eq_of_mem_replicate hmem) (by decide)
  have htext : b ++ (block path text ++ rest) =
      (b ++ (fence text ++ path)) ++ '\n' :: (endLine text ++ (fence text ++ '\n' :: rest)) := by
    simp [block]
  rw [htext, Text.splitAt_append_cons _ (not_mem_title hb hpath text), hsplit,
    Text.splitAt_append_cons _ hfence]

/-- The first line that closes the fence is the one behind the text. -/
theorem findIdx?_fence {text : Text} {ls : List Text} (h : unlines ls = endLine text) (rest : List Text) :
    (ls ++ fence text :: rest).findIdx? (Code.closesFence (fenceLength text)) = some ls.length := by
  have hnone : ls.findIdx? (Code.closesFence (fenceLength text)) = none := by
    rw [List.findIdx?_eq_none_iff]
    intro l hl
    rw [← Bool.not_eq_true, Code.closesFence_iff]
    exact not_closesFence_of_unlines h hl
  have hfirst : Code.closesFence (fenceLength text) (fence text) = true :=
    Code.closesFence_iff.2 (closesFence_fence text)
  rw [List.findIdx?_append, hnone, List.findIdx?_cons, hfirst]
  simp

/-- A block that starts a line, blanks aside, is code. -/
theorem pieces_block {b path : Text} (hb : ∀ c ∈ b, isLineBlank c = true) (hpath : Titles path)
    (text rest : Text) : pieces (b ++ (block path text ++ rest)) =
      .code (b ++ blockCode path text) :: .prose ['\n'] :: pieces rest := by
  obtain ⟨ls, hls, hlines⟩ := exists_splitAt_block hb hpath.2 text rest
  have hopen := Code.fenceOpening?_eq_some_iff.2 (opensFence_title hb hpath.1 text)
  have hfind := findIdx?_fence hls (Text.splitAt '\n' rest)
  have hcode : Text.join ['\n'] ((b ++ (fence text ++ path)) :: (ls ++ [fence text])) =
      b ++ blockCode path text := by
    rw [Code.join_cons_ne_nil _ (by simp), Text.join_append_eq ls (by simp), hls]
    simp [blockCode, Text.join, List.intercalate]
  have htake : (ls ++ fence text :: Text.splitAt '\n' rest).take (ls.length + 1) = ls ++ [fence text] := by
    rw [List.take_append, List.take_of_length_le (Nat.le_succ _)]
    simp
  have hdrop : (ls ++ fence text :: Text.splitAt '\n' rest).drop (ls.length + 1) =
      Text.splitAt '\n' rest := by
    simp [List.drop_append]
  have hbehind : ¬(ls ++ fence text :: Text.splitAt '\n' rest).length ≤ ls.length + 1 := by
    have hpos := List.length_pos_iff.2 (Text.splitAt_ne_nil '\n' rest)
    simp only [List.length_append, List.length_cons]
    omega
  rw [pieces, hlines, linePieces, hopen]
  simp only [hfind, htake, hdrop, hcode, if_neg hbehind]
  rfl

theorem pieces_lineFeed (t : Text) : pieces ('\n' :: t) = .prose ['\n'] :: pieces t := by
  rw [pieces, Text.splitAt_cons_self, linePieces]
  simp [Text.splitAt_ne_nil, Code.fenceOpening?, Code.leadingTicks, Code.runs, Code.inlinePieces, pieces]

def formatPieces (b : Text) : Listing → List Code.Piece
  | [] => []
  | (path, text) :: rest =>
    .code (b ++ blockCode path text) :: .prose ['\n'] ::
      if rest = [] then [] else .prose ['\n'] :: formatPieces [] rest

theorem format_cons (path text : Text) {rest : Listing} (h : rest ≠ []) :
    format ((path, text) :: rest) = block path text ++ '\n' :: format rest := by
  rw [format, List.map_cons, Code.join_cons_ne_nil _ (by simpa using h)]
  rfl

/-- A listing that starts a line, blanks aside, is one code for each file. -/
theorem pieces_format (rest : Text) : ∀ {files : Listing} {b : Text}, files ≠ [] →
    (∀ file ∈ files, Titles file.1) → (∀ c ∈ b, isLineBlank c = true) →
    pieces (b ++ (format files ++ rest)) = formatPieces b files ++ pieces rest := by
  intro files
  induction files with
  | nil => intro b h; exact absurd rfl h
  | cons file files ih =>
      intro b _ hpaths hb
      obtain ⟨path, text⟩ := file
      have hpath : Titles path := hpaths _ (List.mem_cons_self ..)
      by_cases hfiles : files = []
      · subst hfiles
        have hformat : format [(path, text)] = block path text := by
          simp [format, Text.join, List.intercalate]
        rw [hformat, pieces_block hb hpath]
        rfl
      · have hlater := ih (b := []) hfiles (fun f hf => hpaths f (List.mem_cons_of_mem _ hf)) (by simp)
        rw [format_cons path text hfiles, List.append_assoc, pieces_block hb hpath, List.cons_append,
          pieces_lineFeed, formatPieces, if_neg hfiles]
        simpa using hlater

/-- There is one code for each file. -/
theorem countP_formatPieces : ∀ (files : Listing) (b : Text),
    (formatPieces b files).countP (fun piece => !piece.isProse) = files.length := by
  intro files
  induction files with
  | nil => intro b; rfl
  | cons file files ih =>
      intro b
      obtain ⟨path, text⟩ := file
      by_cases hfiles : files = []
      · subst hfiles
        rfl
      · rw [formatPieces, if_neg hfiles, List.countP_cons, List.countP_cons, List.countP_cons, ih]
        rfl

theorem eq_of_prose_mem_formatPieces {s : Text} : ∀ {files : Listing} {b : Text},
    .prose s ∈ formatPieces b files → s = ['\n'] := by
  intro files
  induction files with
  | nil => intro b h; cases h
  | cons file files ih =>
      intro b h
      obtain ⟨path, text⟩ := file
      rw [formatPieces] at h
      rcases List.mem_cons.1 h with h | h
      · cases h
      · rcases List.mem_cons.1 h with h | h
        · exact Code.Piece.prose.inj h
        · by_cases hfiles : files = []
          · rw [if_pos hfiles] at h
            cases h
          · rw [if_neg hfiles] at h
            rcases List.mem_cons.1 h with h | h
            · exact Code.Piece.prose.inj h
            · exact ih h

end Stencil.Listing
