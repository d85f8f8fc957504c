import Stencil.Proofs.Code.Masking
import Stencil.Proofs.Code.Stripping

/-! # Texts behind complete lines

What stands behind complete lines without code is masked as if it stood alone (`Vault.mask_lines`), and behind
complete lines without comments and with no tag left open it is stripped as if it stood alone
(`Comment.strip_lines`). -/
set_option autoImplicit false
namespace Stencil

/-! ## Code -/

/-- By induction on the lines, none of which opens a fence. -/
theorem Code.exists_linePieces_append {ms : List Text} (hms : ms ≠ []) : ∀ {ls : List Text},
    (linePieces (ls ++ [[]])).all Piece.isProse = true →
    ∃ ps, ps.all Piece.isProse = true ∧ linePieces (ls ++ ms) = ps ++ linePieces ms := by
  intro ls
  induction ls with
  | nil => intro _; exact ⟨[], rfl, rfl⟩
  | cons l ls ih =>
      intro h
      have hfence : fenceOpening? l = none := by
        cases hl : fenceOpening? l with
        | none => rfl
        | some n =>
            rw [List.cons_append, all_isProse_linePieces_fence hl] at h
            cases h
      rw [List.cons_append, linePieces, hfence] at h
      simp only [List.all_append, Bool.and_eq_true] at h
      obtain ⟨hline, hrest⟩ := h
      rw [if_neg (by simp)] at hrest
      obtain ⟨ps, hps, heq⟩ := ih (Bool.and_eq_true_iff.1 hrest).2
      refine ⟨inlinePieces (runs l) ++ .prose ['\n'] :: ps, ?_, ?_⟩
      · simp [hline, hps, Piece.isProse]
      · rw [List.cons_append, linePieces, hfence]
        simp only
        rw [if_neg (by simp [hms]), heq, List.append_assoc]
        rfl

/-- Complete lines without code are pieces of their own. -/
theorem Code.exists_pieces_append {x : Text} (hx : Text.StartsLine x)
    (h : (pieces x).all Piece.isProse = true) (y : Text) :
    ∃ ps, ps.all Piece.isProse = true ∧ source ps = x ∧ pieces (x ++ y) = ps ++ pieces y := by
  obtain ⟨ls, -, hlines⟩ := Text.exists_unlines hx
  have hown := hlines []
  rw [List.append_nil] at hown
  rw [pieces, hown] at h
  obtain ⟨ps, hps, heq⟩ := exists_linePieces_append (Text.splitAt_ne_nil '\n' y) h
  have hpieces : pieces (x ++ y) = ps ++ pieces y := by rw [pieces, hlines, heq]; rfl
  refine ⟨ps, hps, ?_, hpieces⟩
  have hall := source_pieces (x ++ y)
  rw [hpieces, source, List.flatMap_append] at hall
  have hbehind : source ps ++ y = x ++ y := by
    rw [← hall]
    exact congrArg (source ps ++ ·) (source_pieces y).symm
  exact List.append_cancel_right hbehind

namespace Vault

theorem maskPieces_append {ps : List Code.Piece} (v : Vault) (qs : List Code.Piece)
    (h : ps.all Code.Piece.isProse = true) :
    v.maskPieces (ps ++ qs) = (Code.source ps ++ (v.maskPieces qs).1, (v.maskPieces qs).2) := by
  induction ps with
  | nil => rfl
  | cons piece ps ih =>
      cases piece with
      | prose s =>
          rw [List.all_cons, Bool.and_eq_true] at h
          simp [maskPieces, ih h.2, Code.source, Code.Piece.source]
      | code g => simp [Code.Piece.isProse] at h

theorem mask_lines (v : Vault) {s : Text} (t : Text)
    (h : empty.mask (s ++ ['\n']) = (s ++ ['\n'], empty)) :
    v.mask (s ++ ['\n'] ++ t) = (s ++ ['\n'] ++ (v.mask t).1, (v.mask t).2) := by
  obtain ⟨ps, hps, hsource, hpieces⟩ :=
    Code.exists_pieces_append (.inr (by simp)) ((mask_eq_self_iff _ _).1 h) t
  rw [mask, hpieces, maskPieces_append v _ hps, hsource]
  rfl

end Vault

/-! ## Comments -/

namespace Comment

/-- The number of tags that are open for the stripper behind a text without comments. -/
def openTags (depth : Nat) (t : Text) : Nat :=
  match t with
  | [] => depth
  | c :: rest =>
    if c = '{' ∧ opensTag rest then openTags (depth + 1) rest
    else if c = '}' then openTags (depth - 1) rest
    else if c = '"' ∧ 0 < depth then openTags depth (stringTail rest).2
    else openTags depth rest
termination_by t.length
decreasing_by
  · simp
  · simp
  · have := length_stringTail rest
    simp only [List.length_cons]
    omega
  · simp

theorem length_stripFrom (depth : Nat) (afterColon : Bool) (t : Text) :
    (stripFrom depth afterColon t).length ≤ t.length := by
  fun_induction stripFrom depth afterColon t with
  | case1 => exact Nat.le_refl _
  | case2 depth afterColon c rest _ ih => simpa using ih
  | case3 depth afterColon rest _ ih => simpa using ih
  | case4 depth afterColon c rest _ _ _ ih =>
      have htail := congrArg List.length (stringTail_append rest)
      simp only [List.length_append] at htail
      simp only [List.length_append, List.length_cons]
      omega
  | case5 depth afterColon c rest _ _ _ _ ih =>
      have hle := (List.dropWhile_sublist (· ≠ '\n') (l := rest)).length_le
      simp only [List.length_cons]
      omega
  | case6 depth afterColon c rest _ _ _ _ _ ih =>
      have hle := length_afterBlock rest.tail
      simp only [List.length_tail] at hle
      simp only [List.length_cons]
      omega
  | case7 depth afterColon c rest _ _ _ _ _ ih => simpa using ih

/-- What stands behind a comment does not make up for it. -/
theorem stripFrom_ne_cons {depth : Nat} {afterColon : Bool} {c : Char} {t rest : Text}
    (h : t.length ≤ rest.length) : stripFrom depth afterColon t ≠ c :: rest := by
  intro heq
  have hlength := congrArg List.length heq
  have hshort := length_stripFrom depth afterColon t
  simp only [List.length_cons] at hlength
  omega

/-- The text is complete lines, and the last line feed has no backslash before it. -/
def Lines (t : Text) : Prop := t = [] ∨ ∃ s, t = s ++ ['\n'] ∧ s.getLast? ≠ some '\\'

theorem Lines.of_cons {c : Char} {t : Text} (h : Lines (c :: t)) : Lines t := by
  rcases h with h | ⟨s, hs, hlast⟩
  · cases h
  · cases s with
    | nil =>
        obtain ⟨-, rfl⟩ := List.cons.inj hs
        exact .inl rfl
    | cons d s =>
        obtain ⟨-, rfl⟩ := List.cons.inj hs
        refine .inr ⟨s, rfl, fun h => hlast ?_⟩
        cases s with
        | nil => cases h
        | cons e s => rw [List.getLast?_cons_cons]; exact h

theorem Lines.ne_nil {c : Char} {t : Text} (h : Lines (c :: t)) (hc : c ≠ '\n') : t ≠ [] := by
  rintro rfl
  rcases h with h | ⟨s, hs, -⟩
  · cases h
  · cases s with
    | nil => exact hc (List.cons.inj hs).1
    | cons d s => simp at hs

theorem Lines.of_slash {c : Char} {t : Text} (h : Lines ('\\' :: c :: t)) : Lines t ∧ t ≠ [] := by
  refine ⟨h.of_cons.of_cons, ?_⟩
  rintro rfl
  rcases h with h | ⟨s, hs, hlast⟩
  · cases h
  · match s with
    | [] => cases hs
    | [d] =>
        obtain ⟨rfl, -⟩ := List.cons.inj hs
        exact hlast rfl
    | d :: e :: s => simp at hs

/-- A string ends within the lines in which it begins. -/
theorem Lines.stringTail {t : Text} (w : Text) : Lines t → Lines (stringTail t).2 ∧
    (t ≠ [] → Comment.stringTail (t ++ w) = ((Comment.stringTail t).1, (Comment.stringTail t).2 ++ w)) := by
  fun_induction Comment.stringTail t with
  | case1 => intro h; exact ⟨h, fun hne => absurd rfl hne⟩
  | case2 => intro h; exact absurd rfl (h.ne_nil (by decide))
  | case3 c rest inside after hsplit ih =>
      intro h
      obtain ⟨hrest, hne⟩ := h.of_slash
      obtain ⟨hlines, happend⟩ := ih hrest
      rw [hsplit] at hlines happend
      refine ⟨hlines, fun _ => ?_⟩
      rw [List.cons_append, List.cons_append, Comment.stringTail, happend hne]
  | case4 c rest hsingle hslash hend =>
      intro h
      have hc : c ≠ '\\' := by
        rintro rfl
        cases rest with
        | nil => exact hsingle rfl rfl
        | cons d rest => exact hslash d rest rfl rfl
      refine ⟨h.of_cons, fun _ => ?_⟩
      rw [List.cons_append, stringTail_cons hc, if_pos hend]
  | case5 c rest hsingle hslash hend inside after hsplit ih =>
      intro h
      have hc : c ≠ '\\' := by
        rintro rfl
        cases rest with
        | nil => exact hsingle rfl rfl
        | cons d rest => exact hslash d rest rfl rfl
      have hne : rest ≠ [] := h.ne_nil fun hc => hend (.inr hc)
      obtain ⟨hlines, happend⟩ := ih h.of_cons
      rw [hsplit] at hlines happend
      refine ⟨hlines, fun _ => ?_⟩
      rw [List.cons_append, stringTail_cons hc, if_neg hend, happend hne]

theorem opensTag_lines {t : Text} (h : Lines t) (hne : t ≠ []) (w : Text) :
    opensTag (t ++ w) = opensTag t := by
  obtain ⟨s, rfl, -⟩ := h.resolve_left hne
  rw [List.append_assoc, List.singleton_append, opensTag_append_cons (by decide)]

/-- Where nothing is a comment, what stands behind complete lines is stripped with the tags that they leave
open. -/
theorem stripFrom_lines (w : Text) {depth : Nat} {afterColon : Bool} {t : Text} : Lines t →
    (t = [] → afterColon = false) → stripFrom depth afterColon t = t →
    stripFrom depth afterColon (t ++ w) = t ++ stripFrom (openTags depth t) false w := by
  fun_induction stripFrom depth afterColon t with
  | case1 depth afterColon =>
      intro _ hcolon _
      rw [hcolon rfl, openTags]
      rfl
  | case2 depth afterColon c rest hopens ih =>
      intro hlines _ hself
      have hne : rest ≠ [] := hlines.ne_nil (by rw [hopens.1]; decide)
      rw [List.cons_append, stripFrom, opensTag_lines hlines.of_cons hne, if_pos hopens,
        ih hlines.of_cons (fun h => absurd h hne) (List.cons.inj hself).2, openTags, if_pos hopens]
      rfl
  | case3 depth afterColon rest hopens ih =>
      intro hlines _ hself
      have hne : rest ≠ [] := hlines.ne_nil (by decide)
      rw [List.cons_append, stripFrom, if_neg (by simp), if_pos rfl,
        ih hlines.of_cons (fun h => absurd h hne) (List.cons.inj hself).2, openTags,
        if_neg (by simp), if_pos rfl]
      rfl
  | case4 depth afterColon c rest hopens hcloses hquote ih =>
      intro hlines _ hself
      have hne : rest ≠ [] := hlines.ne_nil (by rw [hquote.1]; decide)
      obtain ⟨hafter, happend⟩ := hlines.of_cons.stringTail w
      have hsplit := stringTail_append rest
      rw [List.cons_append] at hself
      have hkeeps := List.append_cancel_left ((List.cons.inj hself).2.trans hsplit.symm)
      rw [List.cons_append, stripFrom, opensTag_lines hlines.of_cons hne, if_neg hopens,
        if_neg hcloses, if_pos hquote, happend hne, ih hafter (fun _ => rfl) hkeeps, openTags, if_neg hopens,
        if_neg hcloses, if_pos hquote]
      simp only [← List.append_assoc, List.cons_append, hsplit]
  | case5 depth afterColon c rest _ _ _ _ ih =>
      intro _ _ hself
      exact absurd hself (stripFrom_ne_cons (List.dropWhile_sublist _).length_le)
  | case6 depth afterColon c rest _ _ _ _ _ ih =>
      intro _ _ hself
      have hbehind := (length_afterBlock rest.tail).trans (List.tail_sublist rest).length_le
      exact absurd hself (stripFrom_ne_cons hbehind)
  | case7 depth afterColon c rest hopens hcloses hquote hline hblock ih =>
      intro hlines _ hself
      by_cases hne : rest = []
      · subst hne
        have hc : c = '\n' := by
          by_contra h
          exact hlines.ne_nil h rfl
        have hneutral : Neutral '\n' := ⟨by decide, by decide, by decide, by decide, by decide⟩
        have hdepth : openTags depth ['\n'] = depth := by simp [openTags]
        rw [hc, List.singleton_append, stripFrom_cons hneutral, hdepth]
        rfl
      · rw [List.cons_append, stripFrom, opensTag_lines hlines.of_cons hne,
          List.head?_append_of_ne_nil _ hne, if_neg hopens, if_neg hcloses, if_neg hquote,
          if_neg hline, if_neg hblock, ih hlines.of_cons (fun h => absurd h hne) (List.cons.inj hself).2,
          openTags, if_neg hopens, if_neg hcloses, if_neg hquote]
        rfl

theorem strip_lines {t : Text} (w : Text) (hlines : Lines t) (hself : strip t = t)
    (hopen : openTags 0 t = 0) : strip (t ++ w) = t ++ strip w := by
  rw [strip, stripFrom_lines w hlines (fun _ => rfl) hself, hopen]
  rfl

end Comment

end Stencil
