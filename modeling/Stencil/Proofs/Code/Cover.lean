import Stencil.Code.Vault

/-! # Covered code

Masking puts something inert in the place of code. The runs of backticks that a line keeps have
pairwise different lengths (`nodup_tickLengths_of_covered`), so that no inline span is left on it.
Whether it opens a fence then does not depend on what covers the code
(`isSome_fenceOpening?_of_covered`). -/
set_option autoImplicit false
namespace Stencil.Code

/-! ## Runs of backticks -/

def tickLengths : List Run → List Nat
  | [] => []
  | .ticks n :: rest => n :: tickLengths rest
  | .other _ :: rest => tickLengths rest

def Run.isTicks : Run → Bool
  | .ticks _ => true
  | .other _ => false

/-- Runs as a line has them: none is empty, no other run holds a backtick, and two runs of backticks
never touch. -/
def Maximal : List Run → Prop
  | [] => True
  | .ticks n :: rest => 0 < n ∧ rest.head?.all (fun run => !run.isTicks) = true ∧ Maximal rest
  | .other s :: rest => s ≠ [] ∧ '`' ∉ s ∧ Maximal rest

theorem mem_tickLengths {n : Nat} : ∀ {rs : List Run}, n ∈ tickLengths rs ↔ .ticks n ∈ rs := by
  intro rs
  induction rs with
  | nil => simp [tickLengths]
  | cons run rest ih =>
      cases run with
      | ticks m => simp [tickLengths, ih]
      | other s => simp [tickLengths, ih]

theorem maximal_cons (c : Char) : ∀ {rs : List Run}, Maximal rs → Maximal (Run.cons c rs) := by
  intro rs h
  unfold Run.cons
  by_cases hc : c = '`'
  · rw [if_pos hc]
    cases rs with
    | nil => simp [Maximal]
    | cons run rest =>
        cases run with
        | ticks n => exact ⟨by omega, h.2⟩
        | other s => exact ⟨by omega, rfl, h⟩
  · rw [if_neg hc]
    have hne : '`' ≠ c := Ne.symm hc
    cases rs with
    | nil => simp [Maximal, hne]
    | cons run rest =>
        cases run with
        | ticks n => exact ⟨by simp, by simpa using hne, h⟩
        | other s =>
            obtain ⟨-, hs, hrest⟩ := h
            exact ⟨by simp, by simp [hne, hs], hrest⟩

theorem maximal_runs (line : Text) : Maximal (runs line) := by
  induction line with
  | nil => trivial
  | cons c line ih => exact maximal_cons c ih

theorem maximal_of_append : ∀ {as bs : List Run}, Maximal (as ++ bs) → Maximal bs := by
  intro as
  induction as with
  | nil => intro bs h; exact h
  | cons run rest ih =>
      intro bs h
      cases run with
      | ticks n => exact ih h.2.2
      | other s => exact ih h.2.2

/-- A run of backticks has no partner exactly when no later run is as long. -/
theorem closeInline?_eq_none_iff (n : Nat) : ∀ rs : List Run,
    closeInline? n rs = none ↔ .ticks n ∉ rs := by
  intro rs
  induction rs with
  | nil => simp [closeInline?]
  | cons run rest ih =>
      simp only [closeInline?]
      by_cases hrun : run = .ticks n
      · simp [hrun]
      · rw [if_neg hrun, Option.map_eq_none_iff, ih, List.mem_cons, not_or]
        exact ⟨fun h => ⟨Ne.symm hrun, h⟩, fun h => h.2⟩

theorem tickLengths_cons_of_ne {c : Char} (hc : c ≠ '`') (rs : List Run) :
    tickLengths (Run.cons c rs) = tickLengths rs := by
  unfold Run.cons
  rw [if_neg hc]
  cases rs with
  | nil => rfl
  | cons run rest => cases run <;> rfl

theorem tickLengths_runs_append {s : Text} (hs : '`' ∉ s) (m : Text) :
    tickLengths (runs (s ++ m)) = tickLengths (runs m) := by
  induction s with
  | nil => rfl
  | cons c s ih =>
      rw [List.mem_cons, not_or] at hs
      show tickLengths (Run.cons c (runs (s ++ m))) = tickLengths (runs m)
      rw [tickLengths_cons_of_ne (Ne.symm hs.1), ih hs.2]

theorem runs_tick_append (m : Text) (hm : m.head? ≠ some '`') : ∀ n : Nat, 0 < n →
    runs (List.replicate n '`' ++ m) = .ticks n :: runs m := by
  intro n
  induction n with
  | zero => intro h; omega
  | succ n ih =>
      intro _
      show Run.cons '`' (runs (List.replicate n '`' ++ m)) = .ticks (n + 1) :: runs m
      by_cases hn : n = 0
      · subst hn
        cases m with
        | nil => rfl
        | cons c m =>
            have hc : c ≠ '`' := by simpa using hm
            show Run.cons '`' (Run.cons c (runs m)) = .ticks 1 :: Run.cons c (runs m)
            unfold Run.cons
            rw [if_neg hc, if_pos rfl]
            cases runs m with
            | nil => rfl
            | cons run rest => cases run <;> rfl
      · rw [ih (by omega)]
        rfl

/-! ## Covered code -/

/-- A text that can stand for code: it is not empty and no rule about code looks at it. -/
def Inert (p : Text) : Prop := p ≠ [] ∧ ∀ c ∈ p, c ≠ '`' ∧ c ≠ '\n' ∧ isLineBlank c = false

/-- The second text is the first one's prose with something inert in the place of each code. -/
inductive Covered : List Piece → Text → Prop
  | nil : Covered [] []
  | prose {ps : List Piece} {m : Text} (s : Text) : Covered ps m → Covered (.prose s :: ps) (s ++ m)
  | code {ps : List Piece} {m p : Text} (g : Text) :
      Inert p → Covered ps m → Covered (.code g :: ps) (p ++ m)

theorem Covered.of_prose {s m : Text} {ps : List Piece} (h : Covered (.prose s :: ps) m) :
    ∃ k, m = s ++ k ∧ Covered ps k := by
  cases h with
  | prose _ h => exact ⟨_, rfl, h⟩

theorem Covered.of_code {g m : Text} {ps : List Piece} (h : Covered (.code g :: ps) m) :
    ∃ p k, m = p ++ k ∧ Inert p ∧ Covered ps k := by
  cases h with
  | code _ hp h => exact ⟨_, _, rfl, hp, h⟩

theorem Covered.of_append : ∀ {ps qs : List Piece} {m : Text}, Covered (ps ++ qs) m →
    ∃ a b, m = a ++ b ∧ Covered ps a ∧ Covered qs b := by
  intro ps
  induction ps with
  | nil => intro qs m h; exact ⟨[], m, rfl, .nil, h⟩
  | cons piece ps ih =>
      intro qs m h
      cases piece with
      | prose s =>
          obtain ⟨k, rfl, hk⟩ := h.of_prose
          obtain ⟨a, b, rfl, ha, hb⟩ := ih hk
          exact ⟨s ++ a, b, by simp, .prose s ha, hb⟩
      | code g =>
          obtain ⟨p, k, rfl, hp, hk⟩ := h.of_code
          obtain ⟨a, b, rfl, ha, hb⟩ := ih hk
          exact ⟨p ++ a, b, by simp, .code g hp ha, hb⟩

theorem not_mem_tick_of_inert {p : Text} (hp : Inert p) : '`' ∉ p :=
  fun h => (hp.2 _ h).1 rfl

/-- What covers a line that begins with no backtick begins with none. -/
theorem head?_of_covered {rs : List Run} {m : Text} (hrs : Maximal rs)
    (hhead : rs.head?.all (fun run => !run.isTicks) = true) (h : Covered (inlinePieces rs) m) :
    m.head? ≠ some '`' := by
  cases rs with
  | nil =>
      rw [inlinePieces] at h
      cases h
      simp
  | cons run rest =>
      cases run with
      | ticks n => simp [Run.isTicks] at hhead
      | other s =>
          rw [inlinePieces] at h
          cases h with
          | prose _ h =>
              obtain ⟨hs, hticks, -⟩ := hrs
              cases s with
              | nil => exact absurd rfl hs
              | cons c s =>
                  rw [List.mem_cons, not_or] at hticks
                  simpa using Ne.symm hticks.1

/-- The runs of backticks that a line keeps have different lengths. -/
theorem nodup_tickLengths_of_covered {rs : List Run} {m : Text} (hrs : Maximal rs)
    (h : Covered (inlinePieces rs) m) :
    (tickLengths (runs m)).Nodup ∧ ∀ n ∈ tickLengths (runs m), .ticks n ∈ rs := by
  fun_induction inlinePieces rs generalizing m with
  | case1 =>
      cases h
      simp [runs, tickLengths]
  | case2 s rest ih =>
      cases h with
      | prose _ h =>
          obtain ⟨hnodup, hmem⟩ := ih hrs.2.2 h
          rw [tickLengths_runs_append hrs.2.1]
          exact ⟨hnodup, fun n hn => List.mem_cons_of_mem _ (hmem n hn)⟩
  | case3 n rest inside after hclose ih =>
      have hsplit := closeInline?_eq hclose
      cases h with
      | code g hp h =>
          have hafter : Maximal after := maximal_of_append (hsplit ▸ hrs.2.2)
          obtain ⟨hnodup, hmem⟩ := ih hafter h
          rw [tickLengths_runs_append (not_mem_tick_of_inert hp)]
          refine ⟨hnodup, fun k hk => List.mem_cons_of_mem _ ?_⟩
          rw [hsplit]
          exact List.mem_append_right _ (hmem k hk)
  | case4 n rest hclose ih =>
      cases h with
      | prose _ h =>
          obtain ⟨hpos, hhead, hrest⟩ := hrs
          obtain ⟨hnodup, hmem⟩ := ih hrest h
          have hticks := runs_tick_append _ (head?_of_covered hrest hhead h) n hpos
          rw [Run.source, hticks, tickLengths]
          have hn : n ∉ tickLengths (runs _) := fun hn =>
            (closeInline?_eq_none_iff n rest).1 hclose (hmem n hn)
          refine ⟨List.nodup_cons.2 ⟨hn, hnodup⟩, fun k hk => ?_⟩
          rcases List.mem_cons.1 hk with rfl | hk
          · exact List.mem_cons_self ..
          · exact List.mem_cons_of_mem _ (hmem k hk)

def Piece.isProse : Piece → Bool
  | .prose _ => true
  | .code _ => false

/-- Without two runs of one length a line has no inline span. -/
theorem all_isProse_inlinePieces {rs : List Run} (h : (tickLengths rs).Nodup) :
    (inlinePieces rs).all Piece.isProse = true := by
  fun_induction inlinePieces rs with
  | case1 => rfl
  | case2 s rest ih => simpa [Piece.isProse] using ih h
  | case3 n rest inside after hclose ih =>
      have hn : .ticks n ∉ rest := fun hm => (List.nodup_cons.1 h).1 (mem_tickLengths.2 hm)
      rw [(closeInline?_eq_none_iff n rest).2 hn] at hclose
      cases hclose
  | case4 n rest hclose ih => simpa [Piece.isProse] using ih (List.nodup_cons.1 h).2

/-! ## Fences behind covered code -/

/-- What a fence rule can see of a text: how many backticks stand at its front, whether others follow
these, which fence it opens, and whether it has backticks at all. -/
def front (t : Text) : Nat × Bool × Option Nat × Bool :=
  ((t.takeWhile (· = '`')).length, (t.dropWhile (· = '`')).all (· ≠ '`'), fenceOpening? t,
    t.all (· ≠ '`'))

theorem fenceOpening?_cons_blank {c : Char} (hc : isLineBlank c = true) (t : Text) :
    fenceOpening? (c :: t) = fenceOpening? t := by
  have hskip : leadingTicks (c :: t) = leadingTicks t := by
    simp only [leadingTicks, List.dropWhile_cons, hc, if_true]
  rw [fenceOpening?, hskip, ← fenceOpening?]

theorem fenceOpening?_cons_tick (t : Text) : fenceOpening? ('`' :: t) =
    if 3 ≤ (t.takeWhile (· = '`')).length + 1 && (t.dropWhile (· = '`')).all (· ≠ '`') then
      some ((t.takeWhile (· = '`')).length + 1)
    else none := by
  have hblank : isLineBlank '`' = false := by decide
  simp only [fenceOpening?, leadingTicks, List.dropWhile_cons, List.takeWhile_cons, hblank,
    decide_true, if_true, List.length_cons, Bool.false_eq_true, if_false]

theorem fenceOpening?_cons_other {c : Char} (hc : c ≠ '`') (hb : isLineBlank c = false) (t : Text) :
    fenceOpening? (c :: t) = none := by
  simp [fenceOpening?, leadingTicks, hc, hb]

theorem front_cons {m n : Text} (c : Char) (h : front m = front n) : front (c :: m) = front (c :: n) := by
  simp only [front, Prod.mk.injEq] at h
  obtain ⟨hcount, hrest, hopen, hall⟩ := h
  by_cases hc : c = '`'
  · subst hc
    simp only [front, fenceOpening?_cons_tick, List.takeWhile_cons, List.dropWhile_cons, decide_true,
      if_true, List.length_cons, List.all_cons, hcount, hrest, hall]
  · have hopen' : fenceOpening? (c :: m) = fenceOpening? (c :: n) := by
      by_cases hb : isLineBlank c = true
      · rw [fenceOpening?_cons_blank hb, fenceOpening?_cons_blank hb, hopen]
      · rw [Bool.not_eq_true] at hb
        rw [fenceOpening?_cons_other hc hb, fenceOpening?_cons_other hc hb]
    simp only [front, hopen', List.takeWhile_cons, List.dropWhile_cons, hc, decide_false,
      Bool.false_eq_true, if_false, List.length_nil, List.all_cons, hall]

theorem front_append {m n : Text} (s : Text) (h : front m = front n) : front (s ++ m) = front (s ++ n) := by
  induction s with
  | nil => exact h
  | cons c s ih => exact front_cons c ih

theorem front_inert {p : Text} (hp : Inert p) (m : Text) :
    front (p ++ m) = (0, m.all (· ≠ '`'), none, m.all (· ≠ '`')) := by
  cases p with
  | nil => exact absurd rfl hp.1
  | cons c p =>
      obtain ⟨hc, -, hb⟩ := hp.2 c (by simp)
      have hp' : p.all (· ≠ '`') = true := by
        rw [List.all_eq_true]
        intro d hd
        simpa using (hp.2 d (List.mem_cons_of_mem _ hd)).1
      simp only [ne_eq, decide_not] at hp'
      simp [front, fenceOpening?, leadingTicks, hc, hb, hp']

/-- For the fence rules it does not matter what covers the code. -/
theorem front_eq_of_covered {ps : List Piece} {m : Text} (h : Covered ps m) :
    ∀ {n : Text}, Covered ps n → front m = front n := by
  induction h with
  | nil => intro n hn; cases hn; rfl
  | prose s h ih =>
      intro n hn
      cases hn with
      | prose _ hn => exact front_append s (ih hn)
  | code g hp h ih =>
      intro n hn
      cases hn with
      | code _ hq hn =>
          have hall := congrArg (·.2.2.2) (ih hn)
          simp only [front] at hall
          rw [front_inert hp, front_inert hq, hall]

def cover (ps : List Piece) : Text :=
  ps.flatMap fun
    | .prose s => s
    | .code _ => [placeholderOpen]

theorem covered_cover (ps : List Piece) : Covered ps (cover ps) := by
  induction ps with
  | nil => exact .nil
  | cons piece ps ih =>
      cases piece with
      | prose s => exact .prose s ih
      | code g => exact .code g ⟨by simp, by simp [placeholderOpen, isLineBlank]⟩ ih

/-- Whether covering the inline spans of a line would make it open a fence. -/
def hidesFence (line : Text) : Bool := (fenceOpening? (cover (inlinePieces (runs line)))).isSome

theorem isSome_fenceOpening?_of_covered {line m : Text} (h : Covered (inlinePieces (runs line)) m) :
    (fenceOpening? m).isSome = hidesFence line := by
  have hfront := front_eq_of_covered h (covered_cover _)
  simp only [front, Prod.mk.injEq] at hfront
  rw [hidesFence, hfront.2.2.1]

end Stencil.Code
