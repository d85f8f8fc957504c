import Stencil.Proofs.Code.Stripping
import Stencil.Proofs.Tag.Literals

/-! # Comment marks in literals

The stripper does not read tags: it counts the braces that may begin one, and within such braces it goes from
a quotation mark to the next one or to the end of the line. So it goes over a literal as a whole if the
literal stays on its line (`stringTail_literal`) and stands in braces (`Enclosed`), as all literals
do (`enclosed_piecesFrom`). It begins none elsewhere if the other quotation marks stand outside all braces.
Then a template with its comment marks in literals stays as it is (`strip_eq_self`). -/
set_option autoImplicit false
namespace Stencil

open Piece (textOf bares cover)

namespace Piece

def isMark : Piece → Piece → Bool
  | .bare c, .bare d => c = '/' && (d = '/' || d = '*')
  | _, _ => false

end Piece

/-- Every comment mark lies in a literal: no two bare neighbours are one. -/
def Unmarked (ps : List Piece) : Prop := ps.IsChain fun p q => p.isMark q = false

instance (ps : List Piece) : Decidable (Unmarked ps) :=
  inferInstanceAs (Decidable (ps.IsChain fun p q => p.isMark q = false))

def breaksLine : Text → Bool
  | [] => false
  | ['\\'] => false
  | '\\' :: _ :: rest => breaksLine rest
  | c :: rest => c = '\n' || breaksLine rest

def Piece.staysOnLine : Piece → Bool
  | .bare _ => true
  | .literal l => !breaksLine l.inside

namespace Comment

def depthBehind (depth : Nat) (c : Char) (after : Text) : Nat :=
  if c = '{' ∧ opensTag after then depth + 1
  else if c = '}' then depth - 1
  else depth

/-- The number of tags that count as open behind the pieces, if literals open and close none. -/
def depthAfter : Nat → List Piece → Text → Nat
  | depth, [], _ => depth
  | depth, .bare c :: ps, after => depthAfter (depthBehind depth c (textOf ps ++ after)) ps after
  | depth, .literal _ :: ps, after => depthAfter depth ps after

def quotesOutside : Nat → List Piece → Bool
  | _, [] => true
  | depth, .bare c :: ps =>
    (c ≠ '"' || depth = 0) && quotesOutside (depthBehind depth c (textOf ps)) ps
  | depth, .literal _ :: ps => quotesOutside depth ps

/-! ## Literals stand in braces -/

/-- A tag counts as open at each literal of the pieces, if so many count as open in front of them. -/
def EnclosedAt (depth : Nat) (ps : List Piece) : Prop :=
  ∀ qs l rs, ps = qs ++ .literal l :: rs → 0 < depthAfter depth qs ['"']

def Enclosed (ps : List Piece) : Prop := ∀ depth, EnclosedAt depth ps

theorem depthAfter_append (after : Text) (qs : List Piece) : ∀ (ps : List Piece) (depth : Nat),
    depthAfter depth (ps ++ qs) after = depthAfter (depthAfter depth ps (textOf qs ++ after)) qs after := by
  intro ps
  induction ps with
  | nil => intro depth; rfl
  | cons p ps ih =>
      intro depth
      cases p with
      | bare c =>
          rw [List.cons_append, depthAfter, depthAfter, Piece.textOf_append, List.append_assoc, ih]
      | literal l => exact ih depth

theorem literal_not_mem_bares (l : Literal) (t : Text) : .literal l ∉ bares t := by
  intro hmem
  obtain ⟨c, -, hc⟩ := List.mem_map.1 hmem
  cases hc

theorem enclosed_bares (t : Text) : Enclosed (bares t) := by
  intro depth qs l rs h
  exact absurd (by rw [h]; simp) (literal_not_mem_bares l t)

/-- A literal of two rows of pieces is one of the first or of the second. -/
theorem split_literal {ps qs xs ys : List Piece} {l : Literal} (h : ps ++ qs = xs ++ .literal l :: ys) :
    (∃ zs, ps = xs ++ .literal l :: zs) ∨ ∃ zs, xs = ps ++ zs ∧ qs = zs ++ .literal l :: ys := by
  rcases List.append_eq_append_iff.1 h with ⟨zs, hxs, hqs⟩ | ⟨zs, hps, hxs⟩
  · exact .inr ⟨zs, hxs, hqs⟩
  · cases zs with
    | nil => exact .inr ⟨[], by rw [hps, List.append_nil, List.append_nil], hxs.symm⟩
    | cons z zs =>
        obtain ⟨rfl, -⟩ := List.cons.inj hxs
        exact .inl ⟨zs, hps⟩

theorem Enclosed.append {ps qs : List Piece} (hp : Enclosed ps) (hq : Enclosed qs) :
    Enclosed (ps ++ qs) := by
  intro depth xs l ys h
  rcases split_literal h with ⟨zs, hps⟩ | ⟨zs, rfl, hqs⟩
  · exact hp depth xs l zs hps
  · rw [depthAfter_append]
    exact hq _ zs l ys hqs

theorem Enclosed.front {ps qs : List Piece} (h : Enclosed ps) (hfront : qs <+: ps) :
    Enclosed qs := by
  obtain ⟨rs, rfl⟩ := hfront
  rintro depth xs l ys rfl
  exact h depth xs l (ys ++ rs) (by simp)

theorem enclosed_cover {ps : List Piece} (h : Enclosed ps) (t : Text) : Enclosed (cover t ps) := by
  obtain ⟨qs, u, hfront, hcover⟩ := Piece.cover_front ps t
  rw [hcover]
  exact (h.front hfront).append (enclosed_bares u)

/-- Inside a tag no brace closes it. -/
theorem le_depthAfter {after : Text} : ∀ {ps : List Piece} (depth : Nat), Inner ps →
    depth ≤ depthAfter depth ps after := by
  intro ps
  induction ps with
  | nil => intro depth _; exact Nat.le_refl _
  | cons p ps ih =>
      intro depth h
      have hps : Inner ps := fun c hc => h c (List.mem_cons_of_mem _ hc)
      cases p with
      | bare c =>
          refine Nat.le_trans ?_ (ih (depthBehind depth c (textOf ps ++ after)) hps)
          rw [depthBehind]
          split
          · exact Nat.le_succ _
          · rw [if_neg (h c (List.mem_cons_self ..)).2]
      | literal l => exact ih depth hps

/-- A tag opens with a brace that counts, so that it counts as open at each of its literals. -/
theorem enclosed_tag {ps : List Piece} {back : Text} (h : Inner ps)
    (hopens : opensTag (textOf ps ++ back) = true) : Enclosed (.bare '{' :: (ps ++ bares back)) := by
  intro depth qs l rs hsplit
  cases qs with
  | nil => cases (List.cons.inj hsplit).1
  | cons q qs =>
      obtain ⟨rfl, htail⟩ := List.cons.inj hsplit
      obtain ⟨zs, rfl⟩ : ∃ zs, ps = qs ++ .literal l :: zs := by
        rcases split_literal htail with hps | ⟨zs, -, hback⟩
        · exact hps
        · exact absurd (by rw [hback]; simp) (literal_not_mem_bares l back)
      have hinner : Inner qs := fun c hc => h c (List.mem_append_left _ hc)
      have hopens' : opensTag (textOf qs ++ ['"']) = true := by
        rw [← opensTag_append_cons (by decide) _ (l.inside ++ '"' :: (textOf zs ++ back)), ← hopens]
        simp [Piece.text, Literal.text]
      rw [depthAfter, depthBehind, if_pos ⟨rfl, hopens'⟩]
      exact Nat.lt_of_lt_of_le (Nat.succ_pos depth) (le_depthAfter _ hinner)

theorem opensTag_of_openingTail {c next : Cursor} {o : Opening}
    (h : Reader.openingTail.run c = .ok (o, next)) : opensTag c.rest = true := by
  obtain ⟨_, c₁, h₁, h⟩ := Reader.exists_of_run_bind h
  obtain ⟨raw, c₂, h₂, h⟩ := Reader.exists_of_run_bind h
  obtain ⟨_, c₃, h₃, h⟩ := Reader.exists_of_run_bind h
  obtain ⟨n, c₄, h₄, -⟩ := Reader.exists_of_run_bind h
  have hblanks : ∀ {c c' : Cursor} {u : Unit}, Reader.skipBlanks.run c = .ok (u, c') →
      c'.rest = c.rest.dropWhile isLineBlank := by
    intro c c' u h
    obtain ⟨-, rfl⟩ := Prod.mk.inj (Except.ok.inj h)
    exact Reader.rest_advance_takeWhile isLineBlank c
  rw [opensTag, ← hblanks h₁]
  simp only [Reader.eat, StateT.run] at h₂
  split at h₂
  next hat =>
    obtain ⟨t, ht⟩ := List.head?_eq_some_iff.1 hat
    rw [ht]
    rfl
  next =>
    obtain ⟨-, rfl⟩ := Prod.mk.inj (Except.ok.inj h₂)
    obtain ⟨ch, hhead, hstart, -⟩ := Reader.takeWhile_of_name h₄
    have hsame : c₃.rest = c₁.rest := by
      rw [hblanks h₃, hblanks h₁]
      exact Reader.dropWhile_append_of_head? (z := []) (by simp)
        (Reader.head?_dropWhile_eq_false isLineBlank c.rest)
    rw [hsame] at hhead
    obtain ⟨t, ht⟩ := List.head?_eq_some_iff.1 hhead
    have hname := Reader.isNameChar_of_isNameStart hstart
    simp only [isNameChar, Bool.or_eq_true, decide_eq_true_eq] at hname
    rw [ht]
    rcases hname with halnum | rfl
    · simp [halnum]
    · rfl

theorem enclosed_slot {c next : Cursor} {s : Slot} (hlead : lead c.rest = .slot)
    (h : Reader.slot.run c = .ok (s, next)) : Enclosed (tagPieces (c.upto next)) := by
  obtain ⟨ps, hinner, hpieces⟩ := pieces_of_slot hlead h
  rw [hpieces]
  exact enclosed_tag (hinner.cons (by decide)) rfl

theorem enclosed_opening {c next : Cursor} {o : Opening} (hlead : lead c.rest = .opening)
    (h : Reader.opening.run c = .ok (o, next)) : Enclosed (tagPieces (c.upto next)) := by
  obtain ⟨ps, hinner, hrest, hpieces⟩ := pieces_of_opening hlead h
  have hopens : opensTag c.rest.tail = true := by
    have htail := opensTag_of_openingTail (c := c.advance 1) h
    rwa [Cursor.advance, List.drop_one] at htail
  rw [hrest, opensTag_append_cons (by decide)] at hopens
  rw [hpieces]
  exact enclosed_tag hinner hopens

theorem enclosed_piecesFrom (c : Cursor) : Enclosed (piecesFrom c) := by
  fun_induction piecesFrom c with
  | case1 => exact enclosed_bares []
  | case2 c ch rest hc hlead ih => exact (enclosed_bares [ch]).append ih
  | case3 => exact enclosed_bares []
  | case4 c ch rest hc hlead s next hs ih => exact (enclosed_slot hlead hs).append ih
  | case5 => exact enclosed_bares []
  | case6 c ch rest hc hlead o mid d source next ho hdef inner ihmid ihnext =>
      have hinner : Enclosed inner := by
        cases hbody : source.body with
        | none => simp only [inner, hbody]; exact enclosed_bares []
        | some body => simp only [inner, hbody]; exact enclosed_cover ihmid body
      exact (enclosed_opening hlead ho).append
        (hinner.append ((enclosed_bares source.closing).append ihnext))
  | case7 => exact enclosed_bares []

/-! ## Stripping piece by piece -/

/-- A literal that stays on its line ends for the stripper where it ends. -/
theorem stringTail_literal {z : Text} : ∀ {s : Text} (r : Text),
    Reader.unquote? (z ++ ['"']) = some (s, []) → breaksLine z = false →
      stringTail (z ++ '"' :: r) = (z ++ ['"'], r) := by
  fun_induction breaksLine z with
  | case1 => intro s r _ _; rfl
  | case2 => intro s r h _; cases h
  | case3 c rest ih =>
      intro s r h hline
      obtain ⟨⟨s', after⟩, hs', heq⟩ := Option.map_eq_some_iff.1 h
      obtain ⟨-, rfl⟩ := Prod.mk.inj heq
      simp only [List.cons_append, stringTail, ih r hs' hline]
  | case4 c rest h₁ h₂ ih =>
      intro s r h hline
      rw [Bool.or_eq_false_iff, decide_eq_false_iff_not] at hline
      have hslash := Reader.ne_backslash h₁ h₂
      rw [List.cons_append, Reader.unquote?_cons hslash] at h
      by_cases hquote : c = '"'
      · rw [if_pos hquote] at h
        exact absurd (Prod.mk.inj (Option.some.inj h)).2 (by simp)
      · rw [if_neg hquote] at h
        obtain ⟨⟨s', after⟩, hs', heq⟩ := Option.map_eq_some_iff.1 h
        obtain ⟨-, rfl⟩ := Prod.mk.inj heq
        rw [List.cons_append, stringTail_cons hslash, if_neg (not_or.2 ⟨hquote, hline.1⟩),
          ih r hs' hline.2]
        rfl

/-- What the stripper keeps of a character that begins neither a comment nor a string. -/
theorem stripFrom_bare (depth : Nat) {c : Char} (rest : Text) (afterColon : Bool)
    (hmark : c = '/' → rest.head? ≠ some '/' ∧ rest.head? ≠ some '*') (hquote : c = '"' → depth = 0) :
    ∃ b, stripFrom depth afterColon (c :: rest) = c :: stripFrom (depthBehind depth c rest) b rest := by
  rw [stripFrom, depthBehind]
  by_cases hopens : c = '{' ∧ opensTag rest = true
  · exact ⟨false, by rw [if_pos hopens, if_pos hopens]⟩
  · by_cases hcloses : c = '}'
    · exact ⟨false, by rw [if_neg hopens, if_pos hcloses, if_neg hopens, if_pos hcloses]⟩
    · have hstring : ¬ (c = '"' ∧ 0 < depth) := by
        rintro ⟨hc, hdepth⟩
        rw [hquote hc] at hdepth
        exact absurd hdepth (Nat.lt_irrefl 0)
      have hline : ¬ (c = '/' ∧ rest.head? = some '/' ∧ ¬ afterColon = true) :=
        fun h => (hmark h.1).1 h.2.1
      have hblock : ¬ (c = '/' ∧ rest.head? = some '*') := fun h => (hmark h.1).2 h.2
      exact ⟨decide (c = ':'), by rw [if_neg hopens, if_neg hcloses, if_neg hstring, if_neg hline,
        if_neg hblock, if_neg hopens, if_neg hcloses]⟩

theorem head?_ne_of_unmarked {c : Char} {ps : List Piece} (h : Unmarked (.bare c :: ps))
    (hc : c = '/') : (textOf ps).head? ≠ some '/' ∧ (textOf ps).head? ≠ some '*' := by
  cases ps with
  | nil => exact ⟨nofun, nofun⟩
  | cons p ps =>
      cases p with
      | bare d =>
          have hmark : Piece.isMark (.bare c) (.bare d) = false := (List.isChain_cons_cons.1 h).1
          simpa [Piece.isMark, Piece.text, hc, not_or] using hmark
      | literal l => exact ⟨by simp [Piece.text, Literal.text], by simp [Piece.text, Literal.text]⟩

theorem depthBehind_append (depth : Nat) (c : Char) (qs : List Piece) (l : Literal) (rs : List Piece) :
    depthBehind depth c (textOf (qs ++ .literal l :: rs)) =
      depthBehind depth c (textOf qs ++ ['"']) := by
  have htext : textOf (qs ++ .literal l :: rs) =
      textOf qs ++ '"' :: (l.inside ++ '"' :: textOf rs) := by
    simp [Piece.text, Literal.text]
  rw [depthBehind, depthBehind, htext, opensTag_append_cons (by decide)]

/-- By induction on the pieces, with the number of open tags in front of them. -/
theorem stripFrom_textOf : ∀ {ps : List Piece} (depth : Nat) (afterColon : Bool), Unmarked ps →
    (∀ p ∈ ps, p.staysOnLine = true) → quotesOutside depth ps = true → EnclosedAt depth ps →
      stripFrom depth afterColon (textOf ps) = textOf ps := by
  intro ps
  induction ps with
  | nil => intro depth afterColon _ _ _ _; rw [Piece.textOf_nil, stripFrom]
  | cons p ps ih =>
      intro depth afterColon hmarks hlines hquotes hopen
      have hmarks' : Unmarked ps := hmarks.tail
      have hlines' : ∀ p ∈ ps, p.staysOnLine = true := fun p hp => hlines p (List.mem_cons_of_mem _ hp)
      cases p with
      | bare c =>
          rw [quotesOutside, Bool.and_eq_true] at hquotes
          obtain ⟨b, hb⟩ := stripFrom_bare depth (textOf ps) afterColon
            (head?_ne_of_unmarked hmarks) (by rintro rfl; simpa using hquotes.1)
          show stripFrom depth afterColon (c :: textOf ps) = c :: textOf ps
          rw [hb, ih _ b hmarks' hlines' hquotes.2]
          rintro qs l rs rfl
          rw [depthBehind_append]
          exact hopen (.bare c :: qs) l rs rfl
      | literal l =>
          have hdepth : 0 < depth := hopen [] l ps rfl
          have hline : breaksLine l.inside = false := by
            simpa [Piece.staysOnLine] using hlines _ (List.mem_cons_self ..)
          have htext : textOf (.literal l :: ps) = '"' :: (l.inside ++ '"' :: textOf ps) := by
            simp [Piece.text, Literal.text]
          have hrest := ih depth false hmarks' hlines' hquotes fun qs k rs hps =>
            hopen (.literal l :: qs) k rs (by rw [hps]; rfl)
          rw [htext, stripFrom, if_neg (by simp), if_neg (by decide), if_pos ⟨rfl, hdepth⟩,
            stringTail_literal _ l.closed hline, hrest]
          simp

/-- A template stays as it is if its comment marks lie in literals. The literals have to stay on their
lines, and the quotation marks outside them have to stand where the stripper counts no tag as open. -/
theorem strip_eq_self (t : Text) (ns : List Node) (h : parse t = .ok ns)
    (hmarks : Unmarked (piecesOf t)) (hlines : ∀ p ∈ piecesOf t, p.staysOnLine = true)
    (hquotes : quotesOutside 0 (piecesOf t) = true) : strip t = t := by
  have hstrip := stripFrom_textOf 0 false hmarks hlines hquotes
    (enclosed_piecesFrom (Cursor.start t) 0)
  rwa [textOf_piecesOf h] at hstrip

def quotedText : Text :=
  bracketed "say \"hi\"\n[d(x, y=\"a//b\")][[f(\"\\\"/*\", 2)]] 'q'[/d]\n\"[u = \"http://h\"]\" [[d(\"//\")]]"

theorem strip_quotedText : (parse quotedText).isOk = true ∧ Unmarked (piecesOf quotedText) ∧
    (∀ p ∈ piecesOf quotedText, p.staysOnLine = true) ∧
    quotesOutside 0 (piecesOf quotedText) = true ∧ strip quotedText = quotedText := by
  have hok : (parse quotedText).isOk = true := by decide +kernel
  have hmarks : Unmarked (piecesOf quotedText) := by decide +kernel
  have hlines : ∀ p ∈ piecesOf quotedText, p.staysOnLine = true := by decide +kernel
  have hquotes : quotesOutside 0 (piecesOf quotedText) = true := by decide +kernel
  cases hparse : parse quotedText with
  | error e => rw [hparse] at hok; cases hok
  | ok ns =>
      exact ⟨rfl, hmarks, hlines, hquotes,
        strip_eq_self quotedText ns hparse hmarks hlines hquotes⟩

/-- The first of three braces is text, but stays open for the stripper, so that the quotation mark behind
the slot begins a string. -/
def strayText : Text := bracketed "[[[x]] \" [[f(\"//\")]]"

def brokenLineText : Text := bracketed "[v=\"a\n// b\"]"

/-- Literals that lose a part, in templates with all comment marks in literals. -/
theorem strip_differs :
    ((parse strayText).isOk = true ∧ Unmarked (piecesOf strayText) ∧
      strip strayText = bracketed "[[[x]] \" [[f(\"") ∧
    (parse brokenLineText).isOk = true ∧ Unmarked (piecesOf brokenLineText) ∧
      strip brokenLineText = bracketed "[v=\"a\n" := by
  decide +kernel

end Comment
end Stencil
