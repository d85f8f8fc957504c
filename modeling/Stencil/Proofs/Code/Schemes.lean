import Stencil.Proofs.Code.Stripping

/-! # The slashes behind a colon

`marked` notes of every character of a text whether the stripper takes it for plain text, for a part of a
string or for a part of a comment: without the comments it is the stripped text (`kept_marked`). Two slashes
behind a colon, as they separate the scheme of an address from its host, begin no comment together. But the
second of them begins one with what stands behind it, if that is a third slash or a star and no string
protects it (`marked_scheme`). -/
set_option autoImplicit false
namespace Stencil.Comment

inductive Mark where
  | plain
  | quoted
  | removed
deriving Repr, DecidableEq

def markAll (m : Mark) (t : Text) : List (Char × Mark) := t.map (·, m)

/-- The characters with their marks, by the rules of `stripFrom`. -/
def markedFrom (depth : Nat) (afterColon : Bool) (t : Text) : List (Char × Mark) :=
  match t with
  | [] => []
  | c :: rest =>
    if c = '{' ∧ opensTag rest then (c, .plain) :: markedFrom (depth + 1) false rest
    else if c = '}' then (c, .plain) :: markedFrom (depth - 1) false rest
    else if c = '"' ∧ 0 < depth then
      markAll .quoted (c :: (stringTail rest).1) ++ markedFrom depth false (stringTail rest).2
    else if c = '/' ∧ rest.head? = some '/' ∧ ¬ afterColon then
      markAll .removed (c :: rest.takeWhile (· ≠ '\n')) ++
        markedFrom depth false (rest.dropWhile (· ≠ '\n'))
    else if c = '/' ∧ rest.head? = some '*' then
      markAll .removed (c :: rest.take (rest.length - (afterBlock rest.tail).length)) ++
        markedFrom depth false (afterBlock rest.tail)
    else (c, .plain) :: markedFrom depth (c = ':') rest
termination_by t.length
decreasing_by
  · simp
  · simp
  · have := length_stringTail rest
    simp only [List.length_cons]
    omega
  · have := (List.dropWhile_sublist (· ≠ '\n') (l := rest)).length_le
    simp only [List.length_cons]
    omega
  · have := length_afterBlock rest.tail
    simp only [List.length_tail, List.length_cons] at this ⊢
    omega
  · simp

def marked (t : Text) : List (Char × Mark) := markedFrom 0 false t

def texts (ms : List (Char × Mark)) : Text := ms.map Prod.fst

def kept (ms : List (Char × Mark)) : Text := texts (ms.filter fun p => p.2 ≠ .removed)

@[simp] theorem texts_append (ms ns : List (Char × Mark)) : texts (ms ++ ns) = texts ms ++ texts ns := by
  simp [texts]

@[simp] theorem texts_cons (c : Char) (m : Mark) (ms : List (Char × Mark)) :
    texts ((c, m) :: ms) = c :: texts ms := rfl

@[simp] theorem texts_markAll (m : Mark) (t : Text) : texts (markAll m t) = t := by
  simp [texts, markAll, Function.comp_def]

@[simp] theorem kept_append (ms ns : List (Char × Mark)) : kept (ms ++ ns) = kept ms ++ kept ns := by
  simp [kept]

@[simp] theorem kept_plain (c : Char) (ms : List (Char × Mark)) :
    kept ((c, .plain) :: ms) = c :: kept ms := rfl

@[simp] theorem kept_quoted (t : Text) : kept (markAll .quoted t) = t := by
  induction t with
  | nil => rfl
  | cons c t ih => exact congrArg (c :: ·) ih

@[simp] theorem kept_removed (t : Text) : kept (markAll .removed t) = [] := by
  induction t with
  | nil => rfl
  | cons c t ih => exact ih

theorem afterBlock_suffix (t : Text) : afterBlock t <:+ t := by
  rcases exists_of_afterBlock t with hnil | ⟨p, hp⟩
  · rw [hnil]
    exact List.nil_suffix
  · exact ⟨_, hp.symm⟩

theorem take_append_afterBlock (t : Text) :
    t.take (t.length - (afterBlock t.tail).length) ++ afterBlock t.tail = t := by
  obtain ⟨p, hp⟩ := (afterBlock_suffix t.tail).trans (List.tail_suffix t)
  have hlength : t.length - (afterBlock t.tail).length = p.length := by
    have h := congrArg List.length hp
    rw [List.length_append] at h
    omega
  rw [hlength]
  calc
    t.take p.length ++ afterBlock t.tail
        = (p ++ afterBlock t.tail).take p.length ++ afterBlock t.tail := by rw [hp]
    _ = p ++ afterBlock t.tail := by rw [List.take_left]
    _ = t := hp

theorem texts_markedFrom (depth : Nat) (afterColon : Bool) (t : Text) :
    texts (markedFrom depth afterColon t) = t := by
  fun_induction markedFrom depth afterColon t with
  | case1 => rfl
  | case2 depth afterColon c rest _ ih => rw [texts_cons, ih]
  | case3 depth afterColon rest _ ih => rw [texts_cons, ih]
  | case4 depth afterColon c rest _ _ _ ih =>
      rw [texts_append, texts_markAll, ih, List.cons_append, stringTail_append]
  | case5 depth afterColon c rest _ _ _ _ ih =>
      rw [texts_append, texts_markAll, ih, List.cons_append, List.takeWhile_append_dropWhile]
  | case6 depth afterColon c rest _ _ _ _ _ ih =>
      rw [texts_append, texts_markAll, ih, List.cons_append, take_append_afterBlock]
  | case7 depth afterColon c rest _ _ _ _ _ ih => rw [texts_cons, ih]

theorem kept_markedFrom (depth : Nat) (afterColon : Bool) (t : Text) :
    kept (markedFrom depth afterColon t) = stripFrom depth afterColon t := by
  fun_induction markedFrom depth afterColon t with
  | case1 => rw [stripFrom]; rfl
  | case2 depth afterColon c rest h ih => rw [kept_plain, ih, stripFrom, if_pos h]
  | case3 depth afterColon rest h ih => rw [kept_plain, ih, stripFrom, if_neg h, if_pos rfl]
  | case4 depth afterColon c rest h₁ h₂ h ih =>
      rw [kept_append, kept_quoted, ih, stripFrom, if_neg h₁, if_neg h₂, if_pos h]
  | case5 depth afterColon c rest h₁ h₂ h₃ h ih =>
      rw [kept_append, kept_removed, ih, stripFrom, if_neg h₁, if_neg h₂, if_neg h₃, if_pos h]
      rfl
  | case6 depth afterColon c rest h₁ h₂ h₃ h₄ h ih =>
      rw [kept_append, kept_removed, ih, stripFrom, if_neg h₁, if_neg h₂, if_neg h₃, if_neg h₄, if_pos h]
      rfl
  | case7 depth afterColon c rest h₁ h₂ h₃ h₄ h ih =>
      rw [kept_plain, ih, stripFrom, if_neg h₁, if_neg h₂, if_neg h₃, if_neg h₄, if_neg h]

theorem kept_marked (t : Text) : kept (marked t) = strip t := kept_markedFrom 0 false t

/-! ## What stands behind a character -/

/-- A character within a stretch of one mark has that mark; the others stand behind the stretch. -/
theorem mark_cases {m k : Mark} {s : Text} {c : Char} {ns p q : List (Char × Mark)}
    (h : markAll m s ++ ns = p ++ (c, k) :: q) :
    (∃ u w, s = u ++ c :: w ∧ k = m ∧ q = markAll m w ++ ns) ∨ ∃ p', ns = p' ++ (c, k) :: q := by
  rcases List.append_eq_append_iff.1 h with ⟨e, -, hns⟩ | ⟨e, hs, hq⟩
  · exact .inr ⟨e, hns⟩
  · cases e with
    | nil => exact .inr ⟨[], hq.symm⟩
    | cons x e =>
        obtain ⟨rfl, rfl⟩ := List.cons.inj hq
        obtain ⟨u, v, rfl, -, hv⟩ := List.map_eq_append_iff.1 hs
        obtain ⟨d, w, rfl, hd, rfl⟩ := List.map_eq_cons_iff.1 hv
        obtain ⟨rfl, rfl⟩ := Prod.mk.inj hd
        exact .inl ⟨u, w, rfl, rfl, rfl⟩

/-- What is read behind a character, by induction along the steps of the stripper: behind plain text it goes
on from there, and in a string first comes the remainder of the string. -/
theorem markedFrom_behind {depth : Nat} {afterColon : Bool} {t : Text} {c : Char} {m : Mark} :
    ∀ {p q : List (Char × Mark)}, markedFrom depth afterColon t = p ++ (c, m) :: q →
      m = .removed ∨
      (∃ depth', m = .plain ∧ q = markedFrom depth' (c = ':') (texts q)) ∨
      ∃ depth' u w rest, m = .quoted ∧ '"' :: (stringTail rest).1 = u ++ c :: w ∧
        q = markAll .quoted w ++ markedFrom depth' false (stringTail rest).2 := by
  fun_induction markedFrom depth afterColon t with
  | case1 => intro p q h; simp at h
  | case2 depth afterColon first rest hopen ih =>
      intro p q h
      rcases List.cons_eq_append_iff.1 h with ⟨-, heq⟩ | ⟨p, -, hrest⟩
      · obtain ⟨hfirst, rfl⟩ := List.cons.inj heq
        obtain ⟨rfl, rfl⟩ := Prod.mk.inj hfirst
        obtain rfl := hopen.1
        exact .inr (.inl ⟨depth + 1, rfl, by rw [texts_markedFrom]; rfl⟩)
      · exact ih hrest
  | case3 depth afterColon rest _ ih =>
      intro p q h
      rcases List.cons_eq_append_iff.1 h with ⟨-, heq⟩ | ⟨p, -, hrest⟩
      · obtain ⟨hfirst, rfl⟩ := List.cons.inj heq
        obtain ⟨rfl, rfl⟩ := Prod.mk.inj hfirst
        exact .inr (.inl ⟨depth - 1, rfl, by rw [texts_markedFrom]; rfl⟩)
      · exact ih hrest
  | case4 depth afterColon first rest _ _ hfirst ih =>
      intro p q h
      rcases mark_cases h with ⟨u, w, hstring, hmark, hbehind⟩ | ⟨p, hrest⟩
      · obtain rfl := hfirst.1
        exact .inr (.inr ⟨depth, u, w, rest, hmark, hstring, hbehind⟩)
      · exact ih hrest
  | case5 depth afterColon first rest _ _ _ _ ih =>
      intro p q h
      rcases mark_cases h with ⟨u, w, -, hmark, -⟩ | ⟨p, hrest⟩
      · exact .inl hmark
      · exact ih hrest
  | case6 depth afterColon first rest _ _ _ _ _ ih =>
      intro p q h
      rcases mark_cases h with ⟨u, w, -, hmark, -⟩ | ⟨p, hrest⟩
      · exact .inl hmark
      · exact ih hrest
  | case7 depth afterColon first rest _ _ _ _ _ ih =>
      intro p q h
      rcases List.cons_eq_append_iff.1 h with ⟨-, heq⟩ | ⟨p, -, hrest⟩
      · obtain ⟨hfirst, rfl⟩ := List.cons.inj heq
        obtain ⟨rfl, rfl⟩ := Prod.mk.inj hfirst
        exact .inr (.inl ⟨depth, rfl, by rw [texts_markedFrom]⟩)
      · exact ih hrest

section

variable {depth : Nat} {afterColon : Bool} {t : Text}

/-- Behind a colon outside of strings and comments the text is read on with the colon in mind. -/
theorem markedFrom_behind_colon {p q : List (Char × Mark)}
    (h : markedFrom depth afterColon t = p ++ (':', .plain) :: q) :
    ∃ depth', q = markedFrom depth' true (texts q) := by
  rcases markedFrom_behind h with hmark | ⟨depth', -, hbehind⟩ | ⟨_, _, _, _, hmark, -, -⟩
  · cases hmark
  · exact ⟨depth', hbehind⟩
  · cases hmark

/-- A string ends with a quotation mark, a line feed or the text. -/
theorem stringTail_eq_nil {rest u : Text} {c : Char} (h : '"' :: (stringTail rest).1 = u ++ [c])
    (hquote : c ≠ '"') (hbreak : c ≠ '\n') : (stringTail rest).2 = [] := by
  refine (getLast?_stringTail rest).resolve_right fun hend => ?_
  have hne : (stringTail rest).1 ≠ [] := by
    intro hnil
    simp [hnil] at hend
  have hlast : (stringTail rest).1.getLast? = some c := by
    rw [← List.getLast?_append_of_ne_nil ['"'] hne, List.singleton_append, h, List.getLast?_concat]
  rw [hlast] at hend
  rcases hend with hend | hend
  · exact hquote (Option.some.inj hend)
  · exact hbreak (Option.some.inj hend)

/-- A string goes on behind all its characters but quotation marks and line feeds. -/
theorem markedFrom_behind_quoted {p q : List (Char × Mark)} {c d : Char} {m : Mark} (hquote : c ≠ '"')
    (hbreak : c ≠ '\n') (h : markedFrom depth afterColon t = p ++ (c, .quoted) :: (d, m) :: q) :
    m = .quoted := by
  rcases markedFrom_behind h with hmark | ⟨_, hmark, -⟩ | ⟨depth', u, w, rest, -, hstring, hbehind⟩
  · cases hmark
  · cases hmark
  cases w with
  | cons e w => exact (Prod.mk.inj (List.cons.inj hbehind).1).2
  | nil =>
      rw [stringTail_eq_nil hstring hquote hbreak, markedFrom] at hbehind
      cases hbehind

end

/-! ## Schemes -/

/-- A slash begins a comment with a second one, except behind a colon, and with a star. -/
theorem markedFrom_slash (depth : Nat) (afterColon : Bool) (rest : Text) :
    (∃ q, markedFrom depth afterColon ('/' :: rest) = ('/', .removed) :: q ∧
      (rest.head? = some '/' ∧ afterColon = false ∨ rest.head? = some '*')) ∨
    markedFrom depth afterColon ('/' :: rest) = ('/', .plain) :: markedFrom depth false rest ∧
      ¬(rest.head? = some '/' ∧ afterColon = false) ∧ rest.head? ≠ some '*' := by
  rw [markedFrom, if_neg (by simp), if_neg (by decide), if_neg (by simp)]
  by_cases hline : rest.head? = some '/' ∧ afterColon = false
  · rw [if_pos ⟨rfl, hline.1, by simp [hline.2]⟩]
    exact .inl ⟨_, rfl, .inl hline⟩
  · rw [if_neg fun h => hline ⟨h.2.1, by simpa using h.2.2⟩]
    by_cases hblock : rest.head? = some '*'
    · rw [if_pos ⟨rfl, hblock⟩]
      exact .inl ⟨_, rfl, .inr hblock⟩
    · rw [if_neg fun h => hblock h.2]
      exact .inr ⟨rfl, hline, hblock⟩

/-- The mark of the colon and the two slashes behind it. -/
theorem scheme_marks {p q : List (Char × Mark)} {m₀ m₁ m₂ : Mark} {t : Text}
    (h : marked t = p ++ (':', m₀) :: ('/', m₁) :: ('/', m₂) :: q) (hm : m₀ ≠ .removed) :
    m₁ = m₀ ∧ (m₂ ≠ .removed ↔
      m₀ = .quoted ∨ (texts q).head? ≠ some '/' ∧ (texts q).head? ≠ some '*') := by
  cases m₀ with
  | removed => exact absurd rfl hm
  | quoted =>
      obtain rfl := markedFrom_behind_quoted (by decide) (by decide) h
      have hsplit : marked t = (p ++ [(':', .quoted)]) ++ ('/', .quoted) :: ('/', m₂) :: q := by
        rw [h, List.append_assoc, List.singleton_append]
      obtain rfl := markedFrom_behind_quoted (by decide) (by decide) hsplit
      simp
  | plain =>
      obtain ⟨depth, hbehind⟩ := markedFrom_behind_colon h
      rw [texts_cons, texts_cons] at hbehind
      rcases markedFrom_slash depth true ('/' :: texts q) with ⟨_, -, hcomment⟩ | ⟨hslash, -, -⟩
      · simp at hcomment
      rw [hslash] at hbehind
      obtain ⟨hfirst, hrest⟩ := List.cons.inj hbehind
      obtain ⟨-, rfl⟩ := Prod.mk.inj hfirst
      refine ⟨rfl, ?_⟩
      rcases markedFrom_slash depth false (texts q) with ⟨_, hremoved, hcomment⟩ | ⟨hplain, hline, hblock⟩
      · rw [hremoved] at hrest
        obtain ⟨-, rfl⟩ := Prod.mk.inj (List.cons.inj hrest).1
        simpa [or_iff_not_imp_left] using hcomment
      · rw [hplain] at hrest
        obtain ⟨-, rfl⟩ := Prod.mk.inj (List.cons.inj hrest).1
        simp only [and_true] at hline
        simp [hline, hblock]

/-- A colon and two slashes that do not begin inside a comment: the colon and the first slash stay, and the
second one stays exactly if a string protects it or neither a third slash nor a star stands behind it. -/
theorem marked_scheme (a b : Text) :
    ∃ p m₀ m₁ m₂ q, marked (a ++ ':' :: '/' :: '/' :: b) = p ++ ([(':', m₀), ('/', m₁), ('/', m₂)] ++ q) ∧
      texts p = a ∧ texts q = b ∧
      strip (a ++ ':' :: '/' :: '/' :: b) = kept p ++ (kept [(':', m₀), ('/', m₁), ('/', m₂)] ++ kept q) ∧
      (m₀ ≠ .removed → m₁ ≠ .removed ∧
        (m₂ ≠ .removed ↔ m₀ = .quoted ∨ b.head? ≠ some '/' ∧ b.head? ≠ some '*')) := by
  have htexts := texts_markedFrom 0 false (a ++ ':' :: '/' :: '/' :: b)
  obtain ⟨p, w, hsplit, rfl, hw⟩ := List.map_eq_append_iff.1 htexts
  obtain ⟨⟨_, m₀⟩, w₁, rfl, rfl, hw₁⟩ := List.map_eq_cons_iff.1 hw
  obtain ⟨⟨_, m₁⟩, w₂, rfl, rfl, hw₂⟩ := List.map_eq_cons_iff.1 hw₁
  obtain ⟨⟨_, m₂⟩, q, rfl, rfl, rfl⟩ := List.map_eq_cons_iff.1 hw₂
  refine ⟨p, m₀, m₁, m₂, q, hsplit, rfl, rfl, ?_, fun hm => ?_⟩
  · rw [← kept_marked, marked, hsplit, ← kept_append, ← kept_append]
    rfl
  · obtain ⟨rfl, hsecond⟩ := scheme_marks hsplit hm
    exact ⟨hm, hsecond⟩

/-- An address of a local file and one with a pattern lose what stands behind their first slash. -/
theorem strip_schemes :
    (marked "file:///x".toList)[4]? = some (':', .plain) ∧ strip "file:///x".toList = "file:/".toList ∧
    (marked "http://*.example.com".toList)[4]? = some (':', .plain) ∧
      strip "http://*.example.com".toList = "http:/".toList := by
  decide +kernel

end Stencil.Comment
