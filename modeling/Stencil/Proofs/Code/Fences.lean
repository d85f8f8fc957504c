import Stencil.Code.Span

/-! # Lines that open and close fences

What the rules of fences say of a line, without the reader of its front (`fenceOpening?_eq_some_iff`,
`closesFence_iff`). -/
set_option autoImplicit false
namespace Stencil.Code

/-- The line is blanks, `n` backticks, of which there are at least three, and no backtick behind them. -/
def OpensFence (n : Nat) (line : Text) : Prop :=
  ∃ b after, line = b ++ (List.replicate n '`' ++ after) ∧ (∀ c ∈ b, isLineBlank c = true) ∧ 3 ≤ n ∧
    '`' ∉ after

def ClosesFence (n : Nat) (line : Text) : Prop :=
  ∃ b m after, line = b ++ (List.replicate m '`' ++ after) ∧ (∀ c ∈ b, isLineBlank c = true) ∧ 3 ≤ m ∧
    n ≤ m ∧ ∀ c ∈ after, isLineBlank c = true ∨ c = '\r'

theorem exists_of_leadingTicks {line after : Text} {n : Nat} (h : leadingTicks line = (n, after)) :
    ∃ b, line = b ++ (List.replicate n '`' ++ after) ∧ ∀ c ∈ b, isLineBlank c = true := by
  obtain ⟨hcount, hafter⟩ := Prod.mk.inj h
  have hticks : (line.dropWhile isLineBlank).takeWhile (· = '`') = List.replicate n '`' := by
    rw [List.eq_replicate_iff]
    refine ⟨hcount, fun c hc => ?_⟩
    simpa using List.all_eq_true.1 List.all_takeWhile c hc
  refine ⟨line.takeWhile isLineBlank, ?_, fun c hc => List.all_eq_true.1 List.all_takeWhile c hc⟩
  rw [← hticks, ← hafter, List.takeWhile_append_dropWhile, List.takeWhile_append_dropWhile]

theorem head?_ne_of_not_mem {c : Char} {t : Text} (h : c ∉ t) : t.head? ≠ some c :=
  fun hhead => h (List.mem_of_head? hhead)

theorem takeWhile_tick {n : Nat} {after : Text} (h : after.head? ≠ some '`') :
    (List.replicate n '`' ++ after).takeWhile (· = '`') = List.replicate n '`' ∧
      (List.replicate n '`' ++ after).dropWhile (· = '`') = after := by
  have hticks : ∀ c ∈ List.replicate n '`', decide (c = '`') = true := fun c hc => by
    simp [List.eq_of_mem_replicate hc]
  rw [List.takeWhile_append_of_pos hticks, List.dropWhile_append_of_pos hticks]
  cases after with
  | nil => simp
  | cons c after =>
      have hc : c ≠ '`' := by simpa using h
      simp [hc]

theorem leadingTicks_eq {b after : Text} {n : Nat} (hb : ∀ c ∈ b, isLineBlank c = true) (hn : 0 < n)
    (hafter : after.head? ≠ some '`') :
    leadingTicks (b ++ (List.replicate n '`' ++ after)) = (n, after) := by
  have hdrop : (List.replicate n '`' ++ after).dropWhile isLineBlank = List.replicate n '`' ++ after := by
    obtain ⟨k, rfl⟩ : ∃ k, n = k + 1 := ⟨n - 1, by omega⟩
    rw [List.replicate_succ, List.cons_append, List.dropWhile_cons_of_neg (by decide)]
  obtain ⟨htake, hrest⟩ := takeWhile_tick (n := n) hafter
  simp only [leadingTicks, List.dropWhile_append_of_pos hb, hdrop, htake, hrest, List.length_replicate]

theorem fenceOpening?_eq_some_iff {line : Text} {n : Nat} :
    fenceOpening? line = some n ↔ OpensFence n line := by
  constructor
  · intro h
    unfold fenceOpening? at h
    cases hticks : leadingTicks line with
    | mk k after =>
        rw [hticks] at h
        simp only at h
        split at h
        next hk =>
          obtain rfl := Option.some.inj h
          rw [Bool.and_eq_true, decide_eq_true_eq, List.all_eq_true] at hk
          obtain ⟨b, rfl, hb⟩ := exists_of_leadingTicks hticks
          exact ⟨b, after, rfl, hb, hk.1, fun hmem => by simpa using hk.2 _ hmem⟩
        next => cases h
  · rintro ⟨b, after, rfl, hb, hn, hafter⟩
    have hall : (after.all (· ≠ '`')) = true := by
      rw [List.all_eq_true]
      rintro c hc
      exact decide_eq_true fun heq => hafter (heq ▸ hc)
    rw [fenceOpening?, leadingTicks_eq hb (by omega) (head?_ne_of_not_mem hafter)]
    simp only [hall, Bool.and_true, decide_eq_true hn, if_true]

theorem closesFence_iff {line : Text} {n : Nat} : closesFence n line = true ↔ ClosesFence n line := by
  constructor
  · intro h
    unfold closesFence at h
    cases hticks : leadingTicks line with
    | mk k after =>
        rw [hticks] at h
        simp only [Bool.and_eq_true, decide_eq_true_eq, List.all_eq_true, Bool.or_eq_true] at h
        obtain ⟨⟨hthree, hk⟩, hafter⟩ := h
        obtain ⟨b, rfl, hb⟩ := exists_of_leadingTicks hticks
        exact ⟨b, k, after, rfl, hb, hthree, hk, hafter⟩
  · rintro ⟨b, m, after, rfl, hb, hthree, hm, hafter⟩
    have hhead : after.head? ≠ some '`' := head?_ne_of_not_mem fun hmem =>
      absurd (hafter _ hmem) (by decide)
    have hall : (after.all fun c => isLineBlank c || c = '\r') = true := by
      rw [List.all_eq_true]
      intro c hc
      simpa using hafter c hc
    rw [closesFence, leadingTicks_eq hb (by omega) hhead]
    simp only [hall, Bool.and_true, Bool.and_eq_true, decide_eq_true_eq]
    exact ⟨hthree, hm⟩

end Stencil.Code
