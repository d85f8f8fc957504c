import Stencil.Code.Span

/-! # Parts of a text and the marks between them

`Text.splitAt` is the inverse of joining: parts without the mark come back from the joined text
(`splitAt_join`), as joining the parts of a text gives the text (`Text.join_splitAt`). Complete lines in front
of a text are lines of their own (`exists_unlines`, and `lines_append` for a line reader). -/
set_option autoImplicit false
namespace Stencil.Text

theorem splitAt_ne_nil (mark : Char) (t : Text) : splitAt mark t ≠ [] := by
  cases t with
  | nil => simp [splitAt]
  | cons c t =>
      simp only [splitAt]
      by_cases hc : c = mark
      · simp [hc]
      · rw [if_neg hc]
        split <;> simp

theorem splitAt_cons_self (mark : Char) (t : Text) :
    splitAt mark (mark :: t) = [] :: splitAt mark t := by
  simp [splitAt]

theorem splitAt_cons_of_ne {mark c : Char} (hc : c ≠ mark) {t part : Text} {parts : List Text}
    (h : splitAt mark t = part :: parts) : splitAt mark (c :: t) = (c :: part) :: parts := by
  simp only [splitAt, if_neg hc, h]

theorem splitAt_append_cons {mark : Char} (t : Text) : ∀ {s : Text}, mark ∉ s →
    splitAt mark (s ++ mark :: t) = s :: splitAt mark t := by
  intro s
  induction s with
  | nil => intro _; exact splitAt_cons_self mark t
  | cons c s ih =>
      intro hs
      rw [List.mem_cons, not_or] at hs
      exact splitAt_cons_of_ne (Ne.symm hs.1) (ih hs.2)

theorem splitAt_of_not_mem {mark : Char} : ∀ {s : Text}, mark ∉ s → splitAt mark s = [s] := by
  intro s
  induction s with
  | nil => intro _; rfl
  | cons c s ih =>
      intro hs
      rw [List.mem_cons, not_or] at hs
      exact splitAt_cons_of_ne (Ne.symm hs.1) (ih hs.2)

/-- Parts that do not hold the mark come back when they are joined and split. -/
theorem splitAt_join : ∀ {ms : List Text}, ms ≠ [] → (∀ m ∈ ms, '\n' ∉ m) →
    splitAt '\n' (join ['\n'] ms) = ms := by
  intro ms
  induction ms with
  | nil => intro h; exact absurd rfl h
  | cons m ms ih =>
      intro _ hms
      have hm : '\n' ∉ m := hms m (List.mem_cons_self ..)
      by_cases hne : ms = []
      · subst hne
        simpa [join, List.intercalate] using splitAt_of_not_mem hm
      · rw [Code.join_cons_ne_nil m hne, splitAt_append_cons _ hm,
          ih hne fun k hk => hms k (List.mem_cons_of_mem _ hk)]

theorem not_mem_of_mem_splitAt {mark : Char} : ∀ (t : Text) {part : Text}, part ∈ splitAt mark t →
    mark ∉ part := by
  intro t
  induction t with
  | nil => intro part h; simp [splitAt] at h; simp [h]
  | cons c t ih =>
      intro part h
      by_cases hc : c = mark
      · subst hc
        rw [splitAt_cons_self] at h
        rcases List.mem_cons.1 h with rfl | h
        · simp
        · exact ih h
      · obtain ⟨p, ps, hp⟩ := List.exists_cons_of_ne_nil (splitAt_ne_nil mark t)
        rw [splitAt_cons_of_ne hc hp] at h
        rcases List.mem_cons.1 h with rfl | h
        · have hpart : mark ∉ p := ih (hp ▸ List.mem_cons_self ..)
          simpa [Ne.symm hc] using hpart
        · exact ih (hp ▸ List.mem_cons_of_mem _ h)

theorem splitAt_append_mark (mark : Char) (s t : Text) :
    splitAt mark (s ++ mark :: t) = splitAt mark s ++ splitAt mark t := by
  induction s with
  | nil => simp [splitAt]
  | cons c s ih =>
      by_cases hc : c = mark
      · rw [hc, List.cons_append, splitAt_cons_self, splitAt_cons_self, ih]
        rfl
      · obtain ⟨part, parts, hsplit⟩ := List.exists_cons_of_ne_nil (splitAt_ne_nil mark s)
        rw [hsplit, List.cons_append] at ih
        rw [List.cons_append, splitAt_cons_of_ne hc ih, splitAt_cons_of_ne hc hsplit]
        rfl

/-! ## Complete lines -/

def StartsLine (x : Text) : Prop := x = [] ∨ x.getLast? = some '\n'

def EndsLine (y : Text) : Prop := y = [] ∨ y.head? = some '\n'

def unlines (ls : List Text) : Text := ls.flatMap (· ++ ['\n'])

theorem unlines_append (ls ms : List Text) : unlines (ls ++ ms) = unlines ls ++ unlines ms := by
  simp [unlines]

theorem unlines_eq_join {ls : List Text} (h : ls ≠ []) : unlines ls = join ['\n'] ls ++ ['\n'] := by
  induction ls with
  | nil => exact absurd rfl h
  | cons l ls ih =>
      by_cases hls : ls = []
      · subst hls
        simp [unlines, join, List.intercalate]
      · rw [Code.join_cons_ne_nil l hls]
        simpa [unlines] using ih hls

theorem join_append_eq (ls : List Text) {ms : List Text} (hms : ms ≠ []) :
    join ['\n'] (ls ++ ms) = unlines ls ++ join ['\n'] ms := by
  by_cases hls : ls = []
  · subst hls
    rfl
  · rw [Code.join_append ls hls hms, unlines_eq_join hls]
    simp

/-- Where a line starts the text can be split. -/
theorem exists_unlines {x : Text} (h : StartsLine x) :
    ∃ ls, unlines ls = x ∧ ∀ y, splitAt '\n' (x ++ y) = ls ++ splitAt '\n' y := by
  rcases h with rfl | h
  · exact ⟨[], rfl, fun _ => rfl⟩
  · obtain ⟨x, rfl⟩ := List.getLast?_eq_some_iff.1 h
    refine ⟨splitAt '\n' x, ?_, fun y => ?_⟩
    · rw [unlines_eq_join (splitAt_ne_nil _ _), join_splitAt]
    · rw [List.append_assoc, List.singleton_append, splitAt_append_mark]

/-- The line that a text starts with. -/
theorem exists_splitAt_line {line y : Text} (hline : '\n' ∉ line) (hy : EndsLine y) :
    ∃ after, splitAt '\n' (line ++ y) = line :: after := by
  rcases hy with rfl | hy
  · exact ⟨[], by rw [List.append_nil, splitAt_of_not_mem hline]⟩
  · obtain ⟨y, rfl⟩ := List.head?_eq_some_iff.1 hy
    exact ⟨_, splitAt_append_cons y hline⟩

/-- Every text ends with a line. -/
theorem exists_line_end (x : Text) : ∃ x' a, x = x' ++ a ∧ StartsLine x' ∧ '\n' ∉ a := by
  induction x with
  | nil => exact ⟨[], [], rfl, .inl rfl, by simp⟩
  | cons c x ih =>
      obtain ⟨x', a, rfl, hx', ha⟩ := ih
      rcases hx' with rfl | hx'
      · by_cases hc : c = '\n'
        · exact ⟨[c], a, rfl, .inr (by simp [hc]), ha⟩
        · exact ⟨[], c :: a, rfl, .inl rfl, by simp [Ne.symm hc, ha]⟩
      · obtain ⟨x', rfl⟩ := List.getLast?_eq_some_iff.1 hx'
        exact ⟨c :: (x' ++ ['\n']), a, rfl, .inr (by simp [List.getLast?_cons]), ha⟩

/-- Every text begins with a line. -/
theorem exists_line_start (y : Text) : ∃ b y', y = b ++ y' ∧ EndsLine y' ∧ '\n' ∉ b := by
  induction y with
  | nil => exact ⟨[], [], rfl, .inl rfl, by simp⟩
  | cons c y ih =>
      by_cases hc : c = '\n'
      · exact ⟨[], c :: y, rfl, .inr (by simp [hc]), by simp⟩
      · obtain ⟨b, y', rfl, hy', hb⟩ := ih
        exact ⟨c :: b, y', rfl, hy', by simp [Ne.symm hc, hb]⟩

/-! ## The lines of a line reader -/

def dropReturn (line : Text) : Text := if endsWith line ['\r'] then line.dropLast else line

theorem exists_splitAt_concat (t : Text) : ∃ front last, splitAt '\n' t = front ++ [last] := by
  rcases List.eq_nil_or_concat (splitAt '\n' t) with h | ⟨front, last, h⟩
  · exact absurd h (splitAt_ne_nil _ _)
  · exact ⟨front, last, by rw [h, List.concat_eq_append]⟩

theorem lines_of_splitAt {t last : Text} {front : List Text} (h : splitAt '\n' t = front ++ [last]) :
    lines t = front.map dropReturn ++ if last = [] then [] else [last] := by
  unfold lines
  rw [h]
  simp only [List.dropLast_concat, List.getLast?_concat]
  cases last with
  | nil => rw [if_pos rfl, List.append_nil]; rfl
  | cons c last => rw [if_neg (List.cons_ne_nil c last)]; rfl

/-- A text that begins at the start of a line has lines of its own. -/
theorem lines_append {a : Text} (ha : StartsLine a) (b : Text) : lines (a ++ b) = lines a ++ lines b := by
  obtain ⟨ls, -, hls⟩ := exists_unlines ha
  obtain ⟨front, last, hb⟩ := exists_splitAt_concat b
  have hfirst : splitAt '\n' a = ls ++ [[]] := by
    rw [← List.append_nil a]
    exact hls []
  have hboth : splitAt '\n' (a ++ b) = (ls ++ front) ++ [last] := by
    rw [hls, hb, List.append_assoc]
  rw [lines_of_splitAt hfirst, lines_of_splitAt hb, lines_of_splitAt hboth, if_pos rfl, List.append_nil,
    List.map_append, List.append_assoc]

end Stencil.Text
