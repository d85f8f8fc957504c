import Mathlib.Data.List.Chain
import Stencil.Comment
import Stencil.Proofs.Code.Restoration

/-! # Comments and placeholders

Comments are stripped from a text whose code is behind placeholders. A comment begins with a slash and ends
with a slash or before a line break, so that a placeholder is in it or outside as a whole: what is left
stands for something when the text did (`stands_strip`). -/
set_option autoImplicit false
namespace Stencil

open Vault (Cuts placeholder)

namespace Comment

theorem opensTag_append_cons {d : Char} (hd : isLineBlank d = false) (x w : Text) :
    opensTag (x ++ d :: w) = opensTag (x ++ [d]) := by
  induction x with
  | nil => simp [opensTag, hd]
  | cons c x ih =>
      unfold opensTag at ih ⊢
      by_cases hc : isLineBlank c = true
      · rw [List.cons_append, List.cons_append, List.dropWhile_cons_of_pos hc,
          List.dropWhile_cons_of_pos hc]
        exact ih
      · rw [List.cons_append, List.cons_append, List.dropWhile_cons_of_neg hc,
          List.dropWhile_cons_of_neg hc]

theorem stringTail_cons {c : Char} (hc : c ≠ '\\') (t : Text) :
    stringTail (c :: t) =
      if c = '"' ∨ c = '\n' then ([c], t)
      else (c :: (stringTail t).1, (stringTail t).2) := by
  rw [stringTail]
  · rintro rfl; exact absurd rfl hc
  · rintro d u rfl; exact absurd rfl hc

/-- A string ends with a quote or a line break, or reaches to the end. -/
theorem stringTail_append : ∀ t : Text, (stringTail t).1 ++ (stringTail t).2 = t := by
  intro t
  fun_induction stringTail t with
  | case1 => rfl
  | case2 => rfl
  | case3 c rest inside after hsplit ih =>
      rw [hsplit] at ih
      simp only [List.cons_append, ih]
  | case4 => rfl
  | case5 c rest _ _ _ inside after hsplit ih =>
      rw [hsplit] at ih
      simp only [List.cons_append, ih]

theorem getLast?_stringTail : ∀ t : Text, (stringTail t).2 = [] ∨
    (stringTail t).1.getLast? = some '"' ∨ (stringTail t).1.getLast? = some '\n' := by
  intro t
  fun_induction stringTail t with
  | case1 => exact .inl rfl
  | case2 => exact .inl rfl
  | case3 c rest inside after hsplit ih =>
      rw [hsplit] at ih
      refine ih.imp_right fun hlast => ?_
      cases inside with
      | nil => exact absurd hlast (by simp)
      | cons d inside => simpa using hlast
  | case4 c rest _ _ hend =>
      rcases hend with rfl | rfl
      · exact .inr (.inl rfl)
      · exact .inr (.inr rfl)
  | case5 c rest _ _ _ inside after hsplit ih =>
      rw [hsplit] at ih
      refine ih.imp_right fun hlast => ?_
      cases inside with
      | nil => exact absurd hlast (by simp)
      | cons d inside => simpa using hlast

theorem exists_of_afterBlock : ∀ t : Text, afterBlock t = [] ∨ ∃ p, t = p ++ ['/'] ++ afterBlock t := by
  intro t
  fun_induction afterBlock t with
  | case1 => exact .inl rfl
  | case2 rest => exact .inr ⟨['*'], rfl⟩
  | case3 c rest _ ih =>
      rcases ih with hnil | ⟨p, hp⟩
      · exact .inl hnil
      · exact .inr ⟨c :: p, congrArg (c :: ·) hp⟩

/-! ## Texts without comments -/

def opensComment (c d : Char) : Bool := c = '/' && (d = '/' || d = '*')

def Free (t : Text) : Prop := t.IsChain fun c d => opensComment c d = false

instance (t : Text) : Decidable (Free t) :=
  inferInstanceAs (Decidable (t.IsChain fun c d => opensComment c d = false))

theorem free_of_not_mem {t : Text} (h : '/' ∉ t) : Free t := by
  refine List.Pairwise.isChain (List.pairwise_of_forall_mem_list fun c hc d _ => ?_)
  have hne : c ≠ '/' := fun heq => h (heq ▸ hc)
  simp [opensComment, hne]

theorem Free.of_suffix {s t : Text} (h : Free t) (hs : s <:+ t) : Free s :=
  List.IsChain.suffix h hs

theorem Free.append {s t : Text} (hs : Free s) (ht : Free t)
    (hseam : s.getLast? ≠ some '/' ∨ t.head? = some '{') : Free (s ++ t) := by
  refine List.isChain_append.2 ⟨hs, ht, fun c hc d hd => ?_⟩
  rcases hseam with hlast | hhead
  · have hne : c ≠ '/' := fun heq => hlast (heq ▸ hc)
    simp [opensComment, hne]
  · obtain rfl : '{' = d := by simpa [hhead] using hd
    simp [opensComment]

theorem Free.head?_ne {rest : Text} (h : Free ('/' :: rest)) :
    rest.head? ≠ some '/' ∧ rest.head? ≠ some '*' := by
  cases rest with
  | nil => simp
  | cons d rest =>
      have hd := (List.isChain_cons_cons.1 h).1
      simpa [opensComment] using hd

theorem stripFrom_of_free (depth : Nat) (afterColon : Bool) (t : Text) :
    Free t → stripFrom depth afterColon t = t := by
  fun_induction stripFrom depth afterColon t with
  | case1 => intro _; rfl
  | case2 depth afterColon c rest _ ih =>
      intro h
      rw [ih (h.of_suffix (List.suffix_cons ..))]
  | case3 depth afterColon rest _ ih =>
      intro h
      rw [ih (h.of_suffix (List.suffix_cons ..))]
  | case4 depth afterColon c rest _ _ _ ih =>
      intro h
      have htail := stringTail_append rest
      have hafter : (stringTail rest).2 <:+ rest := ⟨_, htail⟩
      rw [ih (h.of_suffix (hafter.trans (List.suffix_cons ..))), List.cons_append, htail]
  | case5 depth afterColon c rest _ _ _ hslash =>
      intro h
      exact absurd hslash.2.1 (hslash.1 ▸ h).head?_ne.1
  | case6 depth afterColon c rest _ _ _ _ hslash =>
      intro h
      exact absurd hslash.2 (hslash.1 ▸ h).head?_ne.2
  | case7 depth afterColon c rest _ _ _ _ _ ih =>
      intro h
      rw [ih (h.of_suffix (List.suffix_cons ..))]

theorem strip_of_free {t : Text} (h : Free t) : strip t = t := stripFrom_of_free 0 false t h

/-- The character begins no tag, string or comment, ends no tag, and is no colon. -/
def Neutral (c : Char) : Prop := c ≠ '{' ∧ c ≠ '}' ∧ c ≠ '"' ∧ c ≠ '/' ∧ c ≠ ':'

theorem stripFrom_cons {c : Char} (hc : Neutral c) (depth : Nat) (afterColon : Bool) (t : Text) :
    stripFrom depth afterColon (c :: t) = c :: stripFrom depth false t := by
  obtain ⟨hopen, hclose, hquote, hslash, hcolon⟩ := hc
  rw [stripFrom, if_neg (fun h => hopen h.1), if_neg hclose, if_neg (fun h => hquote h.1),
    if_neg (fun h => hslash h.1), if_neg (fun h => hslash h.1), decide_eq_false hcolon]

theorem stripFrom_append {s : Text} (hs : ∀ c ∈ s, Neutral c) (depth : Nat) (t : Text) :
    stripFrom depth false (s ++ t) = s ++ stripFrom depth false t := by
  induction s with
  | nil => rfl
  | cons c s ih =>
      rw [List.cons_append, stripFrom_cons (hs c (List.mem_cons_self ..)),
        ih fun d hd => hs d (List.mem_cons_of_mem _ hd)]
      rfl

theorem neutral_of_mem_placeholder {i : Nat} {c : Char} (hc : c ∈ placeholder i) : Neutral c := by
  rcases Vault.mem_placeholder hc with rfl | hdigit | rfl
  · exact ⟨by decide, by decide, by decide, by decide, by decide⟩
  · refine ⟨?_, ?_, ?_, ?_, ?_⟩ <;> (rintro rfl; exact absurd hdigit (by decide))
  · exact ⟨by decide, by decide, by decide, by decide, by decide⟩

theorem stripFrom_placeholder (i depth : Nat) (afterColon : Bool) (t : Text) :
    stripFrom depth afterColon (placeholder i ++ t) = placeholder i ++ stripFrom depth false t := by
  have hneutral : ∀ c ∈ placeholder i, Neutral c := fun c hc => neutral_of_mem_placeholder hc
  rw [placeholder, List.cons_append, List.cons_append, stripFrom_cons (hneutral _ (by simp [placeholder])),
    stripFrom_append fun c hc => hneutral c (by simp only [placeholder]; exact List.mem_cons_of_mem _ hc)]
  rfl

theorem cuts_stringTail (t : Text) : Cuts (stringTail t).1 (stringTail t).2 := by
  rcases getLast?_stringTail t with hnil | hquote | hbreak
  · rw [hnil]
    exact .inr (by simp)
  · rw [Cuts, hquote]
    exact .inl (by simp; decide)
  · rw [Cuts, hbreak]
    exact .inl (by simp; decide)

variable {strict : Prop} {v : Vault}

theorem stands_dropWhile {t : Text} (h : v.Stands strict t) :
    v.Stands strict (t.dropWhile (· ≠ '\n')) := by
  rw [← List.takeWhile_append_dropWhile (p := (· ≠ '\n')) (l := t)] at h
  refine (h.cut (.inr fun c hc => ?_)).2
  have hbreak := List.head?_dropWhile_not (· ≠ '\n') t
  rw [Option.mem_def.1 hc] at hbreak
  obtain rfl : c = '\n' := by simpa using hbreak
  exact ⟨by decide, by decide⟩

theorem stands_afterBlock {t : Text} (h : v.Stands strict t) : v.Stands strict (afterBlock t) := by
  rcases exists_of_afterBlock t with hnil | ⟨p, hp⟩
  · rw [hnil]
    exact .nil v
  · rw [hp] at h
    exact (h.cut (.inl (by simp; decide))).2

/-- By induction on the length, as a comment is passed over in one step. -/
theorem stands_stripFrom : ∀ (k depth : Nat) (afterColon : Bool) {t : Text},
    t.length ≤ k → v.Stands strict t → v.Stands strict (stripFrom depth afterColon t) := by
  intro k
  induction k with
  | zero =>
      intro depth afterColon t hk h
      obtain rfl : t = [] := List.length_eq_zero_iff.1 (by omega)
      rw [stripFrom]
      exact h
  | succ k ih =>
      intro depth afterColon t hk h
      cases t with
      | nil =>
          rw [stripFrom]
          exact h
      | cons c rest =>
          rw [List.length_cons] at hk
          by_cases hmark : c = placeholderOpen
          · subst hmark
            obtain ⟨i, u, hu, hshort, hp, hrest⟩ := h.exists_of_open
            rw [hu, stripFrom_placeholder]
            exact hp.append (ih depth false (by omega) hrest)
          · obtain ⟨hrest, hcons⟩ := h.tail hmark
            have hkeep : ∀ (d : Nat) (b : Bool), v.Stands strict (c :: stripFrom d b rest) :=
              fun d b => hcons (ih d b (by omega) hrest)
            rw [stripFrom]
            by_cases hopens : c = '{' ∧ opensTag rest = true
            · rw [if_pos hopens]
              exact hkeep _ _
            · rw [if_neg hopens]
              by_cases hcloses : c = '}'
              · rw [if_pos hcloses]
                exact hkeep _ _
              · rw [if_neg hcloses]
                by_cases hstring : c = '"' ∧ 0 < depth
                · rw [if_pos hstring]
                  rw [← stringTail_append rest] at hrest
                  obtain ⟨hinside, hbehind⟩ := hrest.cut (cuts_stringTail rest)
                  have hlength := length_stringTail rest
                  exact hcons (hinside.append (ih depth false (by omega) hbehind))
                · rw [if_neg hstring]
                  by_cases hline : c = '/' ∧ rest.head? = some '/' ∧ ¬ afterColon = true
                  · rw [if_pos hline]
                    have hlength := (List.dropWhile_sublist (· ≠ '\n') (l := rest)).length_le
                    exact ih depth false (by omega) (stands_dropWhile hrest)
                  · rw [if_neg hline]
                    by_cases hblock : c = '/' ∧ rest.head? = some '*'
                    · rw [if_pos hblock]
                      obtain ⟨tail, rfl⟩ := List.head?_eq_some_iff.1 hblock.2
                      have hlength := length_afterBlock tail
                      rw [List.length_cons] at hk
                      exact ih depth false (by rw [List.tail_cons]; omega)
                        (stands_afterBlock (hrest.tail (by decide)).1)
                    · rw [if_neg hblock]
                      exact hkeep _ _

theorem stands_strip {t : Text} (h : v.Stands strict t) : v.Stands strict (strip t) :=
  stands_stripFrom t.length 0 false (Nat.le_refl _) h

end Comment

end Stencil
