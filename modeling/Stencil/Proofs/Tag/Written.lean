import Stencil.Proofs.Tag.Grammar

/-! # Written slots are read

A slot with arguments that is written out is a reference to its name, so it is read as the same slot, with
zeros for negative zeros (`slotText_source`). Its numbers have to be finite, for only numerals are read. -/
set_option autoImplicit false
namespace Stencil

/-- The value that is read when this one is written. -/
def Value.settle : Value → Value
  | .text t => .text t
  | .number x => .number (Stencil.settle x)

def Argument.settle (a : Argument) : Argument := { a with value := a.value.settle }

def Slot.settle (s : Slot) : Slot := { s with args := s.args.map Argument.settle }

namespace Reader

/-! ## Values -/

theorem Quoted.literalChar {z t : Text} (h : Quoted z t) (c : Char) :
    Quoted (Value.literalChar c ++ z) (c :: t) := by
  unfold Value.literalChar
  by_cases hquote : c = '"'
  · subst hquote
    exact .escape (by decide) h
  · by_cases hslash : c = '\\'
    · subst hslash
      exact .escape (by decide) h
    · by_cases hfeed : c = '\n'
      · subst hfeed
        exact .escape (by decide) h
      · by_cases htab : c = '\t'
        · subst htab
          exact .escape (by decide) h
        · rw [if_neg hquote, if_neg hslash, if_neg hfeed, if_neg htab]
          exact .char hquote hslash h

theorem quoted_literal (t : Text) : Quoted (t.flatMap Value.literalChar) t := by
  induction t with
  | nil => exact .nil
  | cons c t ih =>
      rw [List.flatMap_cons]
      exact ih.literalChar c

/-- Texts are written as they are, finite numbers as numerals. -/
def Writable : Value → Prop
  | .text _ => True
  | .number x => Decimal.isFinite x = true

instance : DecidablePred Writable
  | .text _ => .isTrue trivial
  | .number x => inferInstanceAs (Decidable (Decimal.isFinite x = true))

theorem isValue_literal {v : Value} (hv : Writable v) : IsValue v.literal v.settle := by
  cases v with
  | text t => exact .text (quoted_literal t)
  | number x => exact .number (readsAs_formatNumber hv)

/-! ## Arguments -/

def WritableArgument (a : Argument) : Prop := (∀ n ∈ a.name, IsName n) ∧ Writable a.value

theorem isArgument_source {a : Argument} (ha : WritableArgument a) : IsArgument a.source a.settle := by
  obtain ⟨name, v⟩ := a
  obtain ⟨hname, hv⟩ := ha
  cases name with
  | none => exact .unnamed (isValue_literal hv)
  | some n => exact @IsArgument.named n [] [] _ _ (hname n rfl) spaces_nil spaces_nil (isValue_literal hv)

theorem WritableArgument.exists_cons {a : Argument} (ha : WritableArgument a) :
    ∃ c u, a.source = c :: u ∧ isTagSpace c = false ∧ c ≠ ')' := (isArgument_source ha).exists_cons

/-- Arguments are written with a comma and a space between them. -/
theorem join_source_cons (a b : Argument) (as : List Argument) :
    Text.join ", ".toList ((a :: b :: as).map Argument.source) =
      a.source ++ (',' :: ([' '] ++ Text.join ", ".toList ((b :: as).map Argument.source))) := by
  simp [Text.join, List.intercalate]

theorem exists_join_source_cons {a : Argument} {c : Char} {u : Text} (h : a.source = c :: u)
    (as : List Argument) :
    ∃ v, Text.join ", ".toList ((a :: as).map Argument.source) = c :: v := by
  cases as with
  | nil => exact ⟨u, by simp [Text.join, List.intercalate, h]⟩
  | cons b as => exact ⟨_, by rw [join_source_cons, h]; rfl⟩

theorem areArguments_join : ∀ {as : List Argument}, as ≠ [] → (∀ a ∈ as, WritableArgument a) →
    AreArguments (Text.join ", ".toList (as.map Argument.source)) (as.map Argument.settle) := by
  intro as
  induction as with
  | nil => intro h; exact absurd rfl h
  | cons a as ih =>
      intro _ has
      have ha := isArgument_source (has a (List.mem_cons_self ..))
      cases as with
      | nil => simpa [Text.join, List.intercalate] using AreArguments.last ha
      | cons b as =>
          have hlater := ih (by simp) fun b hb => has b (List.mem_cons_of_mem _ hb)
          rw [join_source_cons]
          exact @AreArguments.cons _ [] [' '] _ _ _ ha spaces_nil (by simp [Spaces, isTagSpace]) hlater

/-! ## Slots -/

def WritableSlot (s : Slot) : Prop :=
  s.expr = none ∧ IsName s.name ∧ s.args ≠ [] ∧ ∀ a ∈ s.args, WritableArgument a

theorem isReference_source {s : Slot} (hs : WritableSlot s) :
    IsReference (s.name ++ '(' :: (Text.join ", ".toList (s.args.map Argument.source) ++ [')'])) s.name
      (s.args.map Argument.settle) := by
  have hargs := areArguments_join hs.2.2.1 hs.2.2.2
  exact @IsReference.call _ [] [] [] [] _ _ hs.2.1 spaces_nil spaces_nil spaces_nil spaces_nil hargs

end Reader

open Reader (IsName WritableSlot IsReference slotEnd spaces_nil)

/-- A name in double braces is a slot without arguments. -/
theorem slotText_name {n : Text} (hn : IsName n) (raw : Bool) :
    SlotText ('{' :: '{' :: ((if raw then ['@'] else []) ++ (n ++ slotEnd)))
      { name := n, args := [], raw, expr := none } := by
  have hname := IsReference.name (w := []) hn spaces_nil
  rw [List.append_nil] at hname
  exact hname.slotText spaces_nil spaces_nil raw

/-- A slot with arguments that is written out is this slot. -/
theorem slotText_source {s : Slot} (hs : WritableSlot s) : SlotText s.source s.settle := by
  have htext := (Reader.isReference_source hs).slotText spaces_nil spaces_nil s.raw
  have hsource : s.source = '{' :: '{' :: ((if s.raw then ['@'] else []) ++
      (s.name ++ '(' :: (Text.join ", ".toList (s.args.map Argument.source) ++ [')']) ++ slotEnd)) := by
    simp [Slot.source, hs.1, hs.2.2.1, slotEnd]
  have hsettle : s.settle =
      { name := s.name, args := s.args.map Argument.settle, raw := s.raw, expr := none } := by
    rw [Slot.settle, hs.1]
  rw [hsource, hsettle]
  exact htext

/-- It has the same texts among its arguments. -/
theorem exists_slotText_source {s : Slot} (hs : WritableSlot s) :
    ∃ bs, SlotText s.source { name := s.name, args := bs, raw := s.raw, expr := none } ∧ bs ≠ [] ∧
      bs.map (fun b => b.value.asText?) = s.args.map fun a => a.value.asText? := by
  have htext := slotText_source hs
  rw [Slot.settle, hs.1] at htext
  refine ⟨_, htext, by simpa using hs.2.2.1, ?_⟩
  rw [List.map_map]
  refine List.map_congr_left fun a _ => ?_
  obtain ⟨name, v⟩ := a
  cases v <;> rfl

end Stencil
