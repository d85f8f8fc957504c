import Mathlib.Data.List.Basic
import Stencil.Proofs.Code.Bounds
import Stencil.Proofs.Text.Lines

/-! # Code that is found is a span

`IsSpan x g y` says by the rules alone that `g` is code where it stands between `x` and `y`: a fence, closed
or not, or an inline span. All code that the pieces of a line (`isSpan_of_inlinePieces`) and of a text
(`isSpan_of_linePieces`) have is a span in this sense. -/
set_option autoImplicit false
namespace Stencil.Code

open Text (StartsLine EndsLine)

abbrev ticks (n : Nat) : Text := List.replicate n '`'

/-- Between the two texts `n` backticks are a whole run: it goes on to neither side. -/
def IsRun (x : Text) (n : Nat) (y : Text) : Prop := 0 < n ∧ x.getLast? ≠ some '`' ∧ y.head? ≠ some '`'

/-- The second text is code where it stands between the first and the third. -/
inductive IsSpan : Text → Text → Text → Prop
  /-- A fence ends with the first line behind its first one that closes it. -/
  | closed {x y line last : Text} {body : List Text} {n : Nat} : StartsLine x → EndsLine y →
      (∀ l ∈ line :: (body ++ [last]), '\n' ∉ l) → OpensFence n line → (∀ l ∈ body, ¬ClosesFence n l) →
      ClosesFence n last → IsSpan x (Text.join ['\n'] (line :: (body ++ [last]))) y
  /-- A fence that no line closes goes on to the end of the text. -/
  | unclosed {x line : Text} {body : List Text} {n : Nat} : StartsLine x →
      (∀ l ∈ line :: body, '\n' ∉ l) → OpensFence n line → (∀ l ∈ body, ¬ClosesFence n l) →
      IsSpan x (Text.join ['\n'] (line :: body)) []
  /-- An inline span goes from a run to the next one of the same length on the line. -/
  | inline {x inner y : Text} {n : Nat} : '\n' ∉ inner → IsRun x n (inner ++ (ticks n ++ y)) →
      IsRun (x ++ (ticks n ++ inner)) n y →
      (∀ a b, inner = a ++ (ticks n ++ b) → ¬IsRun (x ++ (ticks n ++ a)) n (b ++ (ticks n ++ y))) →
      IsSpan x (ticks n ++ (inner ++ ticks n)) y

/-! ## Runs of a line -/

theorem head?_ticks {n : Nat} (hn : 0 < n) (t : Text) : (ticks n ++ t).head? = some '`' := by
  obtain ⟨k, rfl⟩ : ∃ k, n = k + 1 := ⟨n - 1, by omega⟩
  rfl

theorem getLast?_ticks {n : Nat} (hn : 0 < n) (t : Text) : (t ++ ticks n).getLast? = some '`' := by
  obtain ⟨k, rfl⟩ : ∃ k, n = k + 1 := ⟨n - 1, by omega⟩
  rw [ticks, List.replicate_succ', ← List.append_assoc, List.getLast?_append]
  rfl

/-- What begins with no run of backticks begins with no backtick. -/
theorem head?_source {rs : List Run} (hrs : Maximal rs)
    (hhead : rs.head?.all (fun run => !run.isTicks) = true) {y : Text} (hy : y.head? ≠ some '`') :
    (rs.flatMap Run.source ++ y).head? ≠ some '`' := by
  cases rs with
  | nil => exact hy
  | cons run rest =>
      cases run with
      | ticks n => simp [Run.isTicks] at hhead
      | other s =>
          obtain ⟨hs, hticks, -⟩ := hrs
          obtain ⟨c, s, rfl⟩ := List.exists_cons_of_ne_nil hs
          rw [List.mem_cons, not_or] at hticks
          simpa [Run.source] using Ne.symm hticks.1

theorem maximal_left : ∀ {as bs : List Run}, Maximal (as ++ bs) → Maximal as := by
  intro as
  induction as with
  | nil => intro bs _; trivial
  | cons run as ih =>
      intro bs h
      cases run with
      | ticks n =>
          refine ⟨h.1, ?_, ih h.2.2⟩
          cases as with
          | nil => rfl
          | cons next as => exact h.2.1
      | other s => exact ⟨h.1, h.2.1, ih h.2.2⟩

/-- In front of a run of backticks stands something else. -/
theorem getLast?_source {n : Nat} {as bs : List Run} (h : Maximal (as ++ .ticks n :: bs)) :
    (as.flatMap Run.source).getLast? ≠ some '`' := by
  rcases List.eq_nil_or_concat as with rfl | ⟨front, run, rfl⟩
  · simp
  · rw [List.concat_eq_append, List.append_assoc] at h
    have hrun : Maximal (run :: .ticks n :: bs) := maximal_of_append h
    cases run with
    | ticks m => simp [Maximal, Run.isTicks] at hrun
    | other s =>
        obtain ⟨hs, hticks, -⟩ := hrun
        have hsource : (front.concat (.other s)).flatMap Run.source = front.flatMap Run.source ++ s := by
          simp [Run.source]
        rw [hsource]
        intro heq
        exact hticks (List.mem_of_getLast? (by rwa [List.getLast?_append_of_ne_nil _ hs] at heq))

/-- What does not begin with a text begins within it. -/
theorem exists_of_not_prefix {s t a b : Text} (h : s ++ t = a ++ b) (hs : ¬s <+: a) :
    ∃ c, c ≠ [] ∧ s = a ++ c ∧ b = c ++ t := by
  rcases List.append_eq_append_iff.1 h with ⟨c, hc, -⟩ | ⟨c, hc, hb⟩
  · exact absurd ⟨c, hc.symm⟩ hs
  · refine ⟨c, ?_, hc, hb⟩
    rintro rfl
    exact hs ⟨[], by rw [hc, List.append_nil, List.append_nil]⟩

theorem ticks_append_inj {m n : Nat} {s t : Text} (h : ticks m ++ s = ticks n ++ t)
    (hs : s.head? ≠ some '`') (ht : t.head? ≠ some '`') : m = n ∧ s = t := by
  obtain ⟨htake, hdrop⟩ := takeWhile_tick (n := m) hs
  obtain ⟨htake', hdrop'⟩ := takeWhile_tick (n := n) ht
  have hlength := congrArg (fun u : Text => (u.takeWhile (· = '`')).length) h
  have hrest := congrArg (fun u : Text => u.dropWhile (· = '`')) h
  simp only [htake, htake', List.length_replicate] at hlength
  simp only [hdrop, hdrop'] at hrest
  exact ⟨hlength, hrest⟩

/-- Every whole run of a line is among its runs. -/
theorem exists_run {n : Nat} {b : Text} : ∀ {rs : List Run} {a : Text}, Maximal rs →
    rs.flatMap Run.source = a ++ (ticks n ++ b) → IsRun a n b →
    ∃ as bs, rs = as ++ .ticks n :: bs ∧ as.flatMap Run.source = a ∧ bs.flatMap Run.source = b := by
  intro rs
  induction rs with
  | nil =>
      intro a _ h hrun
      have hhead := head?_ticks hrun.1 b
      rw [(List.append_eq_nil_iff.1 h.symm).2] at hhead
      cases hhead
  | cons run rest ih =>
      intro a hrs h ⟨hn, hbefore, hafter⟩
      cases run with
      | ticks m =>
          obtain ⟨hm, hhead, hrest⟩ := hrs
          have hsplit : ticks m ++ rest.flatMap Run.source = a ++ (ticks n ++ b) := h
          by_cases hprefix : ticks m <+: a
          · -- it stands behind the first run
            obtain ⟨c, rfl⟩ := hprefix
            have hc : c ≠ [] := by
              rintro rfl
              rw [List.append_nil] at hbefore
              exact hbefore (getLast?_ticks hm [])
            rw [List.getLast?_append_of_ne_nil _ hc] at hbefore
            rw [List.append_assoc, List.append_cancel_left_eq] at hsplit
            obtain ⟨as, bs, rfl, rfl, rfl⟩ := ih hrest hsplit ⟨hn, hbefore, hafter⟩
            exact ⟨.ticks m :: as, bs, rfl, rfl, rfl⟩
          · obtain ⟨c, -, hticks, -⟩ := exists_of_not_prefix hsplit hprefix
            have ha : a = [] := Classical.byContradiction fun hne => by
              have hmem : a.getLast hne ∈ ticks m := by
                rw [hticks]
                exact List.mem_append_left _ (List.getLast_mem hne)
              exact hbefore (by rw [List.getLast?_eq_some_getLast hne, List.eq_of_mem_replicate hmem])
            subst ha
            have hnext := head?_source hrest hhead (y := []) (by simp)
            rw [List.append_nil] at hnext
            obtain ⟨rfl, hb⟩ := ticks_append_inj hsplit hnext hafter
            exact ⟨[], rest, rfl, rfl, hb⟩
      | other s =>
          obtain ⟨-, hs, hrest⟩ := hrs
          have hsplit : s ++ rest.flatMap Run.source = a ++ (ticks n ++ b) := h
          by_cases hprefix : s <+: a
          · obtain ⟨c, rfl⟩ := hprefix
            have hbefore' : c.getLast? ≠ some '`' := by
              by_cases hnil : c = []
              · simp [hnil]
              · rwa [List.getLast?_append_of_ne_nil _ hnil] at hbefore
            rw [List.append_assoc, List.append_cancel_left_eq] at hsplit
            obtain ⟨as, bs, rfl, rfl, rfl⟩ := ih hrest hsplit ⟨hn, hbefore', hafter⟩
            exact ⟨.other s :: as, bs, rfl, rfl, rfl⟩
          · obtain ⟨c, hc, rfl, hb⟩ := exists_of_not_prefix hsplit hprefix
            have hhead := head?_ticks hn b
            rw [hb, List.head?_append_of_ne_nil _ hc] at hhead
            exact absurd (List.mem_append_right _ (List.mem_of_head? hhead)) hs

/-! ## Code is a span -/

theorem exists_of_append_eq {α : Type} {as bs cs ds : List α} {d : α} (h : as ++ bs = cs ++ d :: ds) :
    (∃ e, as = cs ++ d :: e ∧ ds = e ++ bs) ∨ ∃ e, cs = as ++ e ∧ bs = e ++ d :: ds := by
  rcases List.append_eq_append_iff.1 h with ⟨e, hcs, hbs⟩ | ⟨e, has, hds⟩
  · exact .inr ⟨e, hcs, hbs⟩
  · cases e with
    | nil => exact .inr ⟨[], by simpa using has.symm, by simpa using hds.symm⟩
    | cons d' e =>
        obtain ⟨rfl, hrest⟩ := List.cons.inj hds
        exact .inl ⟨e, has, hrest⟩

theorem source_append (ps qs : List Piece) : source (ps ++ qs) = source ps ++ source qs := by
  simp [source]

theorem getLast?_of_append {s t : Text} (h : (s ++ t).getLast? ≠ some '`') : t.getLast? ≠ some '`' := by
  by_cases ht : t = []
  · simp [ht]
  · rwa [List.getLast?_append_of_ne_nil _ ht] at h

theorem head?_of_append {s t : Text} (h : (s ++ t).head? ≠ some '`') : s.head? ≠ some '`' := by
  by_cases hs : s = []
  · simp [hs]
  · rwa [List.head?_append_of_ne_nil _ hs] at h

/-- The span that a run of backticks opens with a partner on its line. -/
theorem isSpan_inline {n : Nat} {front after : List Run} {x y : Text}
    (hrs : Maximal (.ticks n :: (front ++ .ticks n :: after))) (hfront : .ticks n ∉ front)
    (hline : '\n' ∉ front.flatMap Run.source) (hx : x.getLast? ≠ some '`') (hy : y.head? ≠ some '`') :
    IsSpan x (ticks n ++ (front.flatMap Run.source ++ ticks n)) (after.flatMap Run.source ++ y) := by
  obtain ⟨hn, hhead, hrest⟩ := hrs
  obtain ⟨-, hnext, hafter⟩ := maximal_of_append hrest
  have hopen : (front.flatMap Run.source ++ (ticks n ++ (after.flatMap Run.source ++ y))).head? ≠
      some '`' := by
    have h := head?_source hrest hhead hy
    simpa [Run.source] using h
  have hwhole : Maximal ((.ticks n :: front) ++ .ticks n :: after) := ⟨hn, hhead, hrest⟩
  have hbefore := getLast?_source hwhole
  have hclose : (x ++ (ticks n ++ front.flatMap Run.source)).getLast? ≠ some '`' := by
    rw [List.getLast?_append_of_ne_nil _ (by simp; omega)]
    exact hbefore
  refine .inline hline ⟨hn, hx, hopen⟩ ⟨hn, hclose, head?_source hafter hnext hy⟩ ?_
  rintro a b heq ⟨-, ha, hb⟩
  have hrun : IsRun a n b :=
    ⟨hn, getLast?_of_append (s := x ++ ticks n) (by rwa [List.append_assoc]), head?_of_append hb⟩
  obtain ⟨as, bs, rfl, -, -⟩ := exists_run (maximal_left hrest) heq hrun
  exact hfront (List.mem_append_right _ (List.mem_cons_self ..))

theorem isSpan_of_inlinePieces {y g : Text} {as : List Piece} (hy : y.head? ≠ some '`') {rs : List Run} :
    ∀ {x : Text} {bs : List Piece}, Maximal rs → '\n' ∉ rs.flatMap Run.source →
      (x.getLast? = some '`' → rs.head?.all (fun run => !run.isTicks) = true) →
      inlinePieces rs = bs ++ .code g :: as → IsSpan (x ++ source bs) g (source as ++ y) := by
  fun_induction inlinePieces rs with
  | case1 => intro x bs _ _ _ h; simp at h
  | case2 s rest ih =>
      intro x bs hrs hline _ h
      cases bs with
      | nil => cases (List.cons.inj h).1
      | cons piece bs =>
          obtain ⟨rfl, htail⟩ := List.cons.inj h
          rw [source_cons_prose, ← List.append_assoc]
          refine ih hrs.2.2 (fun hmem => hline (List.mem_append_right _ hmem)) (fun hlast => ?_) htail
          rw [List.getLast?_append_of_ne_nil _ hrs.1] at hlast
          exact absurd (List.mem_of_getLast? hlast) hrs.2.1
  | case3 n rest inside after hclose ih =>
      intro x bs hrs hline hx h
      obtain rfl := closeInline?_eq hclose
      obtain ⟨front, rfl, hfront⟩ := exists_of_closeInline? hclose
      cases bs with
      | nil =>
          obtain ⟨hcode, rfl⟩ := List.cons.inj h
          obtain rfl := Piece.code.inj hcode
          have hspan := isSpan_inline (x := x) (by simpa using hrs) hfront
            (fun hmem => hline (by simp [hmem])) (fun hlast => by simpa [Run.isTicks] using hx hlast) hy
          rw [source_inlinePieces]
          simpa [Run.source, source] using hspan
      | cons piece bs =>
          obtain ⟨rfl, htail⟩ := List.cons.inj h
          rw [source_cons_code, ← List.append_assoc]
          have hafter : Maximal (.ticks n :: after) := maximal_of_append (by simpa using hrs.2.2)
          exact ih hafter.2.2 (fun hmem => hline (by simp [hmem])) (fun _ => hafter.2.1) htail
  | case4 n rest hclose ih =>
      intro x bs hrs hline _ h
      cases bs with
      | nil => cases (List.cons.inj h).1
      | cons piece bs =>
          obtain ⟨rfl, htail⟩ := List.cons.inj h
          rw [source_cons_prose, ← List.append_assoc]
          exact ih hrs.2.2 (fun hmem => hline (List.mem_append_right _ hmem)) (fun _ => hrs.2.1) htail

theorem getLast?_of_startsLine {x : Text} (h : StartsLine x) : x.getLast? ≠ some '`' := by
  rcases h with rfl | h
  · simp
  · simp [h]

theorem head?_of_endsLine {y : Text} (h : EndsLine y) : y.head? ≠ some '`' := by
  rcases h with rfl | h
  · simp
  · simp [h]

/-- All code of the lines is a span, which one sees by induction along the fences. -/
theorem isSpan_of_linePieces {g : Text} {as : List Piece} {lines : List Text} :
    ∀ {x : Text} {bs : List Piece}, (∀ l ∈ lines, '\n' ∉ l) → StartsLine x →
      linePieces lines = bs ++ .code g :: as → IsSpan (x ++ source bs) g (source as) := by
  fun_induction linePieces lines with
  | case1 => intro x bs _ _ h; simp at h
  | case2 line rest n hn i hi ih =>
      intro x bs hlines hx h
      cases bs with
      | nil =>
          obtain ⟨hcode, rfl⟩ := List.cons.inj h
          obtain rfl := Piece.code.inj hcode
          obtain ⟨hlt, hcloses, hfirst⟩ := List.findIdx?_eq_some_iff_getElem.1 hi
          have htake := List.take_succ_eq_append_getElem hlt
          rw [source, List.flatMap_nil, List.append_nil, htake]
          refine .closed hx ?_ (fun l hl => hlines l ?_) (fenceOpening?_eq_some_iff.1 hn) (fun l hl hl' => ?_)
            (closesFence_iff.1 hcloses)
          · by_cases hend : rest.length ≤ i + 1
            · exact .inl (by simp [hend, source])
            · exact .inr (by simp [hend, source_cons_prose])
          · rw [← htake] at hl
            exact (List.mem_cons.1 hl).elim (fun heq => heq ▸ List.mem_cons_self ..)
              fun hl => List.mem_cons_of_mem _ (List.mem_of_mem_take hl)
          · obtain ⟨j, hj, rfl⟩ := List.mem_take_iff_getElem.1 hl
            exact hfirst j (by omega) (closesFence_iff.2 hl')
      | cons piece bs =>
          obtain ⟨rfl, htail⟩ := List.cons.inj h
          by_cases hend : rest.length ≤ i + 1
          · simp [hend] at htail
          · have hbehind : .prose ['\n'] :: linePieces (rest.drop (i + 1)) = bs ++ .code g :: as := by
              simpa [hend] using htail
            cases bs with
            | nil => cases (List.cons.inj hbehind).1
            | cons piece bs =>
                obtain ⟨rfl, hlater⟩ := List.cons.inj hbehind
                have hspan := ih hend (x := x ++ Text.join ['\n'] (line :: rest.take (i + 1)) ++ ['\n'])
                  (fun l hl => hlines l (List.mem_cons_of_mem _ (List.mem_of_mem_drop hl)))
                  (.inr (by simp)) hlater
                simpa [source_cons_code, source_cons_prose] using hspan
  | case3 line rest n hn hi =>
      intro x bs hlines hx h
      cases bs with
      | nil =>
          obtain ⟨hcode, rfl⟩ := List.cons.inj h
          obtain rfl := Piece.code.inj hcode
          rw [source, List.flatMap_nil, List.append_nil]
          refine .unclosed hx hlines (fenceOpening?_eq_some_iff.1 hn) fun l hl hl' => ?_
          have hno := List.findIdx?_eq_none_iff.1 hi l hl
          rw [closesFence_iff.2 hl'] at hno
          cases hno
      | cons piece bs => simp at h
  | case4 line rest hn ih =>
      intro x bs hlines hx h
      have hline : '\n' ∉ line := hlines line (List.mem_cons_self ..)
      rcases exists_of_append_eq h with ⟨as, hbs, rfl⟩ | ⟨bs, rfl, hrest⟩
      · have hbehind : EndsLine
            (source (if rest.isEmpty = true then [] else .prose ['\n'] :: linePieces rest)) := by
          by_cases hend : rest.isEmpty = true
          · exact .inl (by simp [hend, source])
          · exact .inr (by simp [hend, source_cons_prose])
        rw [source_append]
        exact isSpan_of_inlinePieces (head?_of_endsLine hbehind) (maximal_runs line) (by rwa [source_runs])
          (fun hlast => absurd hlast (getLast?_of_startsLine hx)) hbs
      · by_cases hend : rest.isEmpty = true
        · simp [hend] at hrest
        · rw [if_neg hend] at hrest
          cases bs with
          | nil => cases (List.cons.inj hrest).1
          | cons piece bs =>
              obtain ⟨rfl, hlater⟩ := List.cons.inj hrest
              have hspan := ih (x := x ++ line ++ ['\n'])
                (fun l hl => hlines l (List.mem_cons_of_mem _ hl)) (.inr (by simp)) hlater
              simpa [source_append, source_inlinePieces, source_runs, source_cons_prose] using hspan

end Stencil.Code
