import Stencil.Proofs.Tag.Parts

/-! # Plain tags

The characters of a slot that refers to a name without arguments (`SlotText.isSlotChar`), and where the
value of a single tag stands in it (`DefinitionText.exists_of_single`). -/
set_option autoImplicit false
namespace Stencil

/-! ## Slots without arguments -/

def isSlotChar (c : Char) : Bool :=
  c = '{' || c = '}' || c = '@' || c = '(' || c = ')' || isTagSpace c || isNameChar c

theorem isSlotChar_of_isTagSpace {c : Char} (h : isTagSpace c = true) : isSlotChar c = true := by
  simp [isSlotChar, h]

theorem isSlotChar_of_isNameChar {c : Char} (h : isNameChar c = true) : isSlotChar c = true := by
  simp [isSlotChar, h]

theorem isSlotChar_cons {c : Char} {z : Text} (hc : isSlotChar c = true)
    (hz : ∀ d ∈ z, isSlotChar d = true) : ∀ d ∈ c :: z, isSlotChar d = true :=
  List.forall_mem_cons.2 ⟨hc, hz⟩

theorem isSlotChar_append {y z : Text} (hy : ∀ c ∈ y, isSlotChar c = true)
    (hz : ∀ c ∈ z, isSlotChar c = true) : ∀ c ∈ y ++ z, isSlotChar c = true :=
  List.forall_mem_append.2 ⟨hy, hz⟩

namespace Reader

theorem Spaces.isSlotChar {w : Text} (h : Spaces w) : ∀ c ∈ w, isSlotChar c = true :=
  fun c hc => isSlotChar_of_isTagSpace (h c hc)

theorem IsName.isSlotChar {n : Text} (h : IsName n) : ∀ c ∈ n, isSlotChar c = true :=
  fun c hc => isSlotChar_of_isNameChar (h.isNameChar c hc)

theorem IsReference.isSlotChar {z n : Text} (h : IsReference z n []) : ∀ c ∈ z, isSlotChar c = true := by
  cases h with
  | name hn hw => exact isSlotChar_append hn.isSlotChar hw.isSlotChar
  | empty hn hw hw' hw'' =>
      have hclose := isSlotChar_cons (c := ')') rfl hw''.isSlotChar
      have hparens := isSlotChar_cons (c := '(') rfl (isSlotChar_append hw'.isSlotChar hclose)
      exact isSlotChar_append hn.isSlotChar (isSlotChar_append hw.isSlotChar hparens)
  | call _ _ _ _ _ has => cases has

end Reader

theorem SlotText.isSlotChar {z : Text} {s : Slot} (h : SlotText z s) (hexpr : s.expr = none)
    (hargs : s.args = []) : ∀ c ∈ z, isSlotChar c = true := by
  cases h.isSlot with
  | @reference w w' y n as raw hw hw' hy =>
      obtain rfl : as = [] := hargs
      have hend := isSlotChar_cons (c := '}') rfl (isSlotChar_cons (c := '}') rfl (z := []) nofun)
      have hinside := isSlotChar_append hw'.isSlotChar (isSlotChar_append hy.isSlotChar hend)
      refine isSlotChar_cons rfl (isSlotChar_cons rfl (isSlotChar_append hw.isSlotChar ?_))
      cases raw with
      | true => exact isSlotChar_cons rfl hinside
      | false => exact hinside
  | expression => cases hexpr

/-! ## Single tags -/

namespace Reader

theorem quotes_form {c c' : Cursor} {t : Text} (h : form.run c = .ok (.single (.text t), c')) :
    Quotes c c' t := by
  obtain ⟨o, c₁, h₁, h₂⟩ := exists_of_run_bind h
  obtain ⟨rfl, rfl⟩ := Prod.mk.inj (Except.ok.inj h₁)
  split at h₂
  · obtain ⟨_, c₃, h₃, h⟩ := exists_of_run_bind h₂
    obtain ⟨_, c₄, h₄, h⟩ := exists_of_run_bind h
    obtain ⟨v, c₅, h₅, h⟩ := exists_of_run_bind h
    obtain ⟨_, c₆, h₆, h⟩ := exists_of_run_bind h
    obtain ⟨_, c₇, h₇, h⟩ := exists_of_run_bind h
    obtain ⟨hv, rfl⟩ := Prod.mk.inj (Except.ok.inj h)
    obtain rfl := Form.single.inj hv
    exact (quotes_value h₅).mono (((advances_skip 1).reaches h₃).trans (advances_skipSpace.reaches h₄))
      ((advances_skipSpace.reaches h₆).trans (advances_closeBrace.reaches h₇))
  · obtain ⟨_, c₃, h₃, h⟩ := exists_of_run_bind h₂
    obtain ⟨_, c₄, h₄, h⟩ := exists_of_run_bind h
    obtain ⟨_, c₅, h₅, h⟩ := exists_of_run_bind h
    cases (Prod.mk.inj (Except.ok.inj h)).1
  · obtain ⟨_, c₃, h₃, h⟩ := exists_of_run_bind h₂
    cases (Prod.mk.inj (Except.ok.inj h)).1
  · cases h₂

/-- The text of a single tag is that of a literal in it. -/
theorem quotes_opening {c c' : Cursor} {o : Opening} {t : Text}
    (h : opening.run c = .ok (o, c')) (ho : o.form = .single (.text t)) : Quotes c c' t := by
  obtain ⟨_, c₁, h₁, h⟩ := exists_of_run_bind h
  obtain ⟨_, c₂, h₂, h⟩ := exists_of_run_bind h
  obtain ⟨_, c₃, h₃, h⟩ := exists_of_run_bind h
  obtain ⟨_, c₄, h₄, h⟩ := exists_of_run_bind h
  obtain ⟨_, c₅, h₅, h⟩ := exists_of_run_bind h
  obtain ⟨_, c₆, h₆, h⟩ := exists_of_run_bind h
  obtain ⟨f, c₇, h₇, h⟩ := exists_of_run_bind h
  obtain ⟨rfl, rfl⟩ := Prod.mk.inj (Except.ok.inj h)
  obtain rfl : f = .single (.text t) := ho
  have hbefore : c.Reaches c₆ := ((advances_skip 1).reaches h₁).trans
    ((advances_skipBlanks.reaches h₂).trans (((advances_eat _).reaches h₃).trans
      ((advances_skipBlanks.reaches h₄).trans (((advances_name _).reaches h₅).trans
        (advances_skipSpace.reaches h₆)))))
  exact (quotes_form h₇).mono hbefore (Cursor.Reaches.refl _)

end Reader

/-- A single tag has no parameters. Its content is a number, or the text of a literal in it. -/
theorem DefinitionText.exists_of_single {opening closing : Text} {d : Definition}
    (h : DefinitionText opening none closing d) : d.required = [] ∧ d.optional = [] ∧
      ((∃ x, d.content = formatNumber x) ∨ ∃ front tail after,
        opening = front ++ '"' :: tail ∧ Reader.unquote? tail = some (d.content, after)) := by
  have hrun := h.2 0 []
  simp only [Node.definition] at hrun
  split at hrun
  · cases hrun
  next o next ho =>
    split at hrun
    next v hv =>
      obtain ⟨hd, hsource, -⟩ : Node.singleDefinition o v = d ∧ _ ∧ _ := by
        simpa only [Except.ok.injEq, Prod.mk.injEq] using hrun
      subst hd
      refine ⟨rfl, rfl, ?_⟩
      cases v with
      | number x => exact .inl ⟨x, rfl⟩
      | text t =>
          obtain ⟨htag, -⟩ := openingText_of_run (h.1 _) ho
          have hopening := (DefinitionSource.mk.inj hsource).1
          rw [hopening] at htag
          have hown := htag.2 [] 0
          rw [List.append_nil] at hown
          obtain ⟨front, tail, after, hsplit, hu, -⟩ := Reader.quotes_opening hown hv
          exact .inr ⟨front, tail, after, hsplit, hu⟩
    next ps hps =>
      split at hrun
      · cases hrun
      · simp at hrun

end Stencil
