import Stencil.Settings.Word

/-! # Words that are written in quotes

Between quotes a character that is written with a backslash where it needs one is read as itself
(`splitFrom_quoteChar`), so that the words of a list come back from their written form (`split_write`). -/
set_option autoImplicit false
namespace Stencil.Words

/-- The state in which a quoted part of a word begins: the word has begun, even if nothing of it is there. -/
theorem splitFrom_mark (word : Option Text) (t : Text) :
    splitFrom word .bare ('"' :: t) = splitFrom (some (word.getD [])) .quoted t := by
  rw [splitFrom, if_pos rfl]

theorem splitFrom_quoteChar (w : Text) (c : Char) (t : Text) :
    splitFrom (some w) .quoted (quoteChar c ++ t) = splitFrom (some (w ++ [c])) .quoted t := by
  by_cases hc : c = '"' ∨ c = '\\'
  · rw [quoteChar, if_pos hc]
    rfl
  · obtain ⟨hmark, hbackslash⟩ := not_or.1 hc
    rw [quoteChar, if_neg hc, List.singleton_append, splitFrom, if_neg hmark, if_neg hbackslash]
    rfl

theorem splitFrom_quoted (t : Text) : ∀ (v w : Text),
    splitFrom (some w) .quoted (v.flatMap quoteChar ++ '"' :: t) = splitFrom (some (w ++ v)) .bare t := by
  intro v
  induction v with
  | nil =>
      intro w
      rw [List.flatMap_nil, List.nil_append, splitFrom, if_pos rfl, List.append_nil]
  | cons c v ih =>
      intro w
      rw [List.flatMap_cons, List.append_assoc, splitFrom_quoteChar, ih, List.append_assoc,
        List.singleton_append]

/-- A word in quotes goes on the word before it, or is a word of its own if there is none. -/
theorem splitFrom_quote (word : Option Text) (v t : Text) :
    splitFrom word .bare (quote v ++ t) = splitFrom (some (word.getD [] ++ v)) .bare t := by
  rw [quote, List.append_assoc, List.cons_append, List.singleton_append, splitFrom_mark, splitFrom_quoted]

theorem splitFrom_blank (word : Option Text) {c : Char} (hc : isAsciiSpace c = true) (t : Text) :
    splitFrom word .bare (c :: t) = word.toList ++ splitFrom none .bare t := by
  have hmark : c ≠ '"' := by
    rintro rfl
    cases hc
  rw [splitFrom, if_neg hmark, if_pos hc]

theorem split_cons (v w : Text) (words : List Text) :
    split (write (v :: w :: words)) = v :: split (write (w :: words)) := by
  have hjoin : write (v :: w :: words) = quote v ++ ' ' :: write (w :: words) := by
    simp only [write, Text.join, List.map_cons, List.intercalate_cons_cons, List.append_assoc,
      List.singleton_append]
  rw [split, hjoin, splitFrom_quote, splitFrom_blank _ rfl]
  rfl

/-- Words that are written in quotes, with a blank between neighbours, are read as the same words. -/
theorem split_write (words : List Text) : split (write words) = words := by
  induction words with
  | nil => rfl
  | cons v words ih =>
      cases words with
      | nil =>
          have hwrite : write [v] = quote v ++ [] := rfl
          rw [split, hwrite, splitFrom_quote]
          rfl
      | cons w words => rw [split_cons, ih]

/-- An empty word, blanks, a quote with a backslash before it, and a line break. -/
example : write [[], " \t".toList, "\\\"".toList, "a\nb".toList] =
    "\"\" \" \t\" \"\\\\\\\"\" \"a\nb\"".toList := by decide

end Stencil.Words
