import Stencil.Proofs.Code.Cover
import Stencil.Proofs.Code.Fences
import Stencil.Proofs.Code.Restoration

/-! # Where code begins and ends

Code begins with backticks and ends with them, but for blanks, unless it reaches to the end of the text
(`bounded_pieces`). So masking cuts no placeholder, and a masked text stands for the same as before
(`restores_mask`). -/
set_option autoImplicit false
namespace Stencil

namespace Code

def Begins (g : Text) : Prop := ∃ b r, g = b ++ '`' :: r ∧ ∀ c ∈ b, isLineBlank c = true

def Finishes (g : Text) : Prop :=
  ∃ r b, g = r ++ '`' :: b ∧ ∀ c ∈ b, isLineBlank c = true ∨ c = '\r'

/-- Every code has its bounds, except that the last one may go on to the end. -/
def Bounded : List Piece → Prop
  | [] => True
  | .prose _ :: ps => Bounded ps
  | .code g :: ps => Begins g ∧ (source ps = [] ∨ Finishes g) ∧ Bounded ps

theorem source_cons_prose (s : Text) (ps : List Piece) : source (.prose s :: ps) = s ++ source ps := by
  simp [source, Piece.source]

theorem source_cons_code (g : Text) (ps : List Piece) : source (.code g :: ps) = g ++ source ps := by
  simp [source, Piece.source]

theorem Begins.append {g : Text} (h : Begins g) (t : Text) : Begins (g ++ t) := by
  obtain ⟨b, r, rfl, hb⟩ := h
  exact ⟨b, r ++ t, by simp, hb⟩

theorem Finishes.append {g : Text} (h : Finishes g) (t : Text) : Finishes (t ++ g) := by
  obtain ⟨r, b, rfl, hb⟩ := h
  exact ⟨t ++ r, b, by simp, hb⟩

theorem bounded_append : ∀ {ps qs : List Piece},
    (∀ g, .code g ∈ ps → Begins g ∧ Finishes g) → Bounded qs → Bounded (ps ++ qs) := by
  intro ps
  induction ps with
  | nil => intro qs _ hqs; exact hqs
  | cons piece ps ih =>
      intro qs hps hqs
      have hrest := ih (fun g hg => hps g (List.mem_cons_of_mem _ hg)) hqs
      cases piece with
      | prose s => exact hrest
      | code g =>
          obtain ⟨hbegins, hfinishes⟩ := hps g (List.mem_cons_self ..)
          exact ⟨hbegins, .inr hfinishes, hrest⟩

/-! ## Inline spans -/

/-- An inline span ends with the first run that is as long as its first one. -/
theorem exists_of_closeInline? {n : Nat} : ∀ {rs inside after : List Run},
    closeInline? n rs = some (inside, after) →
    ∃ front, inside = front ++ [.ticks n] ∧ .ticks n ∉ front := by
  intro rs
  induction rs with
  | nil => intro inside after h; cases h
  | cons run rest ih =>
      intro inside after h
      simp only [closeInline?] at h
      by_cases hrun : run = .ticks n
      · rw [if_pos hrun] at h
        obtain ⟨rfl, -⟩ := Prod.mk.inj (Option.some.inj h)
        exact ⟨[], by rw [hrun]; rfl, by simp⟩
      · rw [if_neg hrun] at h
        obtain ⟨⟨i, a⟩, hi, heq⟩ := Option.map_eq_some_iff.1 h
        obtain ⟨rfl, rfl⟩ := Prod.mk.inj heq
        obtain ⟨front, rfl, hfront⟩ := ih hi
        exact ⟨run :: front, rfl, by simp [Ne.symm hrun, hfront]⟩

theorem begins_ticks {n : Nat} (hn : 0 < n) : Begins (List.replicate n '`') := by
  obtain ⟨k, rfl⟩ : ∃ k, n = k + 1 := ⟨n - 1, by omega⟩
  exact ⟨[], List.replicate k '`', by rw [List.replicate_succ]; rfl, by simp⟩

theorem finishes_ticks {n : Nat} (hn : 0 < n) : Finishes (List.replicate n '`') := by
  obtain ⟨k, rfl⟩ : ∃ k, n = k + 1 := ⟨n - 1, by omega⟩
  exact ⟨List.replicate k '`', [], List.replicate_succ', by simp⟩

theorem bounds_inlinePieces {rs : List Run} : Maximal rs → ∀ g, .code g ∈ inlinePieces rs →
    Begins g ∧ Finishes g := by
  fun_induction inlinePieces rs with
  | case1 => intro _ g hg; exact absurd hg (by simp)
  | case2 s rest ih => intro hrs g hg; exact ih hrs.2.2 g (by simpa using hg)
  | case3 n rest inside after hclose ih =>
      intro hrs g hg
      obtain ⟨hpos, -, hrest⟩ := hrs
      rcases List.mem_cons.1 hg with heq | hg
      · obtain rfl := Piece.code.inj heq
        obtain ⟨front, rfl, -⟩ := exists_of_closeInline? hclose
        refine ⟨(begins_ticks hpos).append _, ?_⟩
        rw [List.flatMap_append, ← List.append_assoc]
        have hticks : [Run.ticks n].flatMap Run.source = List.replicate n '`' := by simp [Run.source]
        rw [hticks]
        exact (finishes_ticks hpos).append _
      · rw [closeInline?_eq hclose] at hrest
        exact ih (maximal_of_append hrest) g hg
  | case4 n rest hclose ih => intro hrs g hg; exact ih hrs.2.2 g (by simpa using hg)

/-! ## Fences -/

theorem begins_of_fenceOpening? {line : Text} {n : Nat} (h : fenceOpening? line = some n) :
    Begins line := by
  obtain ⟨b, after, rfl, hb, hn, -⟩ := fenceOpening?_eq_some_iff.1 h
  obtain ⟨j, rfl⟩ : ∃ j, n = j + 1 := ⟨n - 1, by omega⟩
  exact ⟨b, List.replicate j '`' ++ after, by simp [List.replicate_succ], hb⟩

theorem finishes_of_closesFence {line : Text} {n : Nat} (h : closesFence n line = true) :
    Finishes line := by
  obtain ⟨b, m, after, rfl, -, hm, -, hafter⟩ := closesFence_iff.1 h
  obtain ⟨j, rfl⟩ : ∃ j, m = j + 1 := ⟨m - 1, by omega⟩
  exact ⟨b ++ List.replicate j '`', after, by simp [List.replicate_succ'], hafter⟩

theorem begins_join {line : Text} (h : Begins line) (rest : List Text) :
    Begins (Text.join ['\n'] (line :: rest)) := by
  by_cases hrest : rest = []
  · subst hrest
    simpa [Text.join, List.intercalate] using h
  · rw [join_cons_ne_nil line hrest]
    exact h.append _

theorem finishes_join {n i : Nat} {line : Text} {rest : List Text}
    (h : rest.findIdx? (closesFence n) = some i) :
    Finishes (Text.join ['\n'] (line :: rest.take (i + 1))) := by
  obtain ⟨hi, hcloses, -⟩ := List.findIdx?_eq_some_iff_getElem.1 h
  have hlast := finishes_of_closesFence hcloses
  rw [List.take_succ_eq_append_getElem hi, ← List.cons_append,
    join_append _ (by simp) (by simp)]
  have hsingle : Text.join ['\n'] [rest[i]] = rest[i] := by simp [Text.join, List.intercalate]
  have hassoc : ∀ a b : Text, a ++ '\n' :: b = (a ++ ['\n']) ++ b := by simp
  rw [hsingle, hassoc]
  exact hlast.append _

theorem bounded_linePieces (lines : List Text) : Bounded (linePieces lines) := by
  fun_induction linePieces lines with
  | case1 => trivial
  | case2 line rest n hn i hi ih =>
      refine ⟨begins_join (begins_of_fenceOpening? hn) _, .inr (finishes_join hi), ?_⟩
      by_cases h : rest.length ≤ i + 1
      · rw [if_pos h]
        trivial
      · rw [if_neg h]
        exact ih h
  | case3 line rest n hn hi => exact ⟨begins_join (begins_of_fenceOpening? hn) _, .inl rfl, trivial⟩
  | case4 line rest hn ih =>
      refine bounded_append (bounds_inlinePieces (maximal_runs line)) ?_
      by_cases h : rest.isEmpty = true
      · rw [if_pos h]
        trivial
      · rw [if_neg h]
        exact ih

theorem bounded_pieces (t : Text) : Bounded (pieces t) := bounded_linePieces _

end Code

/-! ## Masking -/

namespace Vault

open Code (Begins Finishes Bounded)

theorem cuts_of_begins {g : Text} (h : Begins g) (s t : Text) : Cuts s (g ++ t) := by
  obtain ⟨b, r, rfl, hb⟩ := h
  refine .inr fun c hc => ?_
  have hfirst : isLineBlank c = true ∨ c = '`' := by
    cases b with
    | nil => exact .inr (by simpa using hc.symm)
    | cons d b =>
        obtain rfl : d = c := by simpa using hc
        exact .inl (hb d (List.mem_cons_self ..))
  rcases hfirst with hblank | rfl
  · simp only [isLineBlank, Bool.or_eq_true, decide_eq_true_eq] at hblank
    rcases hblank with rfl | rfl <;> exact ⟨by decide, by decide⟩
  · exact ⟨by decide, by decide⟩

theorem cuts_of_finishes {g : Text} (h : Finishes g) (t : Text) : Cuts g t := by
  obtain ⟨r, b, rfl, hb⟩ := h
  refine .inl fun c hc => ?_
  have hlast : ('`' :: b).getLast? = some c := by
    rw [List.getLast?_append] at hc
    cases hb : ('`' :: b).getLast? with
    | none => exact absurd hb (by simp)
    | some d => rwa [hb] at hc
  rcases List.mem_cons.1 (List.mem_of_getLast? hlast) with rfl | hmem
  · exact ⟨by decide, by decide⟩
  · rcases hb c hmem with hblank | rfl
    · simp only [isLineBlank, Bool.or_eq_true, decide_eq_true_eq] at hblank
      rcases hblank with rfl | rfl <;> exact ⟨by decide, by decide⟩
    · exact ⟨by decide, by decide⟩

theorem getElem?_protect {v : Vault} {g : Text} (i : Nat) (u : Text)
    (h : v.segments[i]? = some u) : (v.protect g).2.segments[i]? = some u := by
  have hlt : i < v.segments.length := by
    obtain ⟨hi, -⟩ := List.getElem?_eq_some_iff.1 h
    exact hi
  show (v.segments ++ [g])[i]? = some u
  rw [List.getElem?_append_left hlt, h]

theorem restores_placeholder {v : Vault} {g q : Text} (h : Restores v v.segments.length g q) :
    Restores (v.protect g).2 (v.protect g).2.segments.length (v.protect g).1 q := by
  have hlength : (v.protect g).2.segments.length = v.segments.length + 1 := by simp [protect]
  have hsegment : (v.protect g).2.segments[v.segments.length]? = some g := by simp [protect]
  rw [hlength]
  have hmark := Restores.mark (Nat.lt_succ_self _) hsegment (h.extend getElem?_protect) .nil
  simpa [protect] using hmark

/-- Code that is put in the vault is cut out at both ends, and its placeholder stands for what it stood
for. -/
theorem restores_protect_code {v : Vault} {a g rest r : Text} (hbegins : Begins g)
    (hfinishes : rest = [] ∨ Finishes g) (h : Restores v v.segments.length (a ++ (g ++ rest)) r) :
    ∃ x, x <:+: r ∧ Restores v v.segments.length g x ∧
      Restores (v.protect g).2 (v.protect g).2.segments.length (a ++ ((v.protect g).1 ++ rest)) r := by
  obtain ⟨p, q, rfl, hp, hq⟩ := h.cut (cuts_of_begins hbegins _ _)
  have hbehind : Cuts g rest := by
    rcases hfinishes with hnil | hfinishes
    · rw [hnil]
      exact .inr (by simp)
    · exact cuts_of_finishes hfinishes _
  obtain ⟨x, y, rfl, hx, hy⟩ := hq.cut hbehind
  have hgrow : v.segments.length ≤ (v.protect g).2.segments.length := by simp [protect]
  refine ⟨x, ⟨p, y, by simp⟩, hx, ?_⟩
  exact ((hp.extend getElem?_protect).mono hgrow).append
    ((restores_placeholder hx).append ((hy.extend getElem?_protect).mono hgrow))

theorem restores_maskPieces : ∀ {ps : List Code.Piece} {v : Vault} {a r : Text}, Bounded ps →
    Restores v v.segments.length (a ++ Code.source ps) r →
    Restores (v.maskPieces ps).2 (v.maskPieces ps).2.segments.length (a ++ (v.maskPieces ps).1) r := by
  intro ps
  induction ps with
  | nil => intro v a r _ h; exact h
  | cons piece ps ih =>
      intro v a r hbounded h
      cases piece with
      | prose s =>
          rw [Code.source_cons_prose, ← List.append_assoc] at h
          have hrest := ih hbounded h
          rwa [List.append_assoc] at hrest
      | code g =>
          obtain ⟨hbegins, hfinishes, hps⟩ := hbounded
          rw [Code.source_cons_code] at h
          obtain ⟨x, -, -, hstored⟩ := restores_protect_code hbegins hfinishes h
          rw [← List.append_assoc] at hstored
          have hrest := ih hps hstored
          rwa [List.append_assoc] at hrest

/-- All code has a backtick. -/
theorem tick_mem_maskPieces : ∀ {ps : List Code.Piece} {v : Vault}, Bounded ps →
    (∀ s ∈ v.segments, '`' ∈ s) → ∀ s ∈ (v.maskPieces ps).2.segments, '`' ∈ s := by
  intro ps
  induction ps with
  | nil => intro v _ h; exact h
  | cons piece ps ih =>
      intro v hbounded h
      cases piece with
      | prose s => exact ih hbounded h
      | code g =>
          refine ih hbounded.2.2 fun s hs => ?_
          rcases List.mem_append.1 hs with hs | hs
          · exact h s hs
          · obtain ⟨b, r, hg, -⟩ := hbounded.1
            obtain rfl : s = g := by simpa using hs
            simp [hg]

theorem tick_mem_mask (t : Text) : ∀ s ∈ (empty.mask t).2.segments, '`' ∈ s :=
  tick_mem_maskPieces (Code.bounded_pieces t) (by simp [empty])

/-- A masked text stands for what the text stood for. -/
theorem restores_mask {v : Vault} {t r : Text} (h : Restores v v.segments.length t r) :
    Restores (v.mask t).2 (v.mask t).2.segments.length (v.mask t).1 r := by
  refine restores_maskPieces (a := []) (Code.bounded_pieces t) ?_
  rw [Code.source_pieces]
  exact h

section

variable {strict : Prop} {v : Vault} {t : Text}

theorem Stands.mask (h : v.Stands strict t) : (v.mask t).2.Stands strict (v.mask t).1 := by
  obtain ⟨r, hr, hclose⟩ := h
  exact ⟨r, restores_mask hr, hclose⟩

theorem Stands.protect (h : v.Stands strict t) : (v.protect t).2.Stands strict (v.protect t).1 := by
  obtain ⟨r, hr, hclose⟩ := h
  exact ⟨r, restores_placeholder hr, hclose⟩

end

end Vault

end Stencil
