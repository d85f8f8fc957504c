import Stencil.Proofs.Tag.Exact

/-! # Parts of tags

What the tags of a text give: the names of slots and arguments are names, and the texts among the arguments are
those of literals in the slot (`SlotText.isName`, `SlotText.holds`), as the texts among the defaults are those of
literals in the opening tag (`defaultsFit_opening`). So they are shorter than the tag. -/
set_option autoImplicit false
namespace Stencil

namespace Reader

/-! ## Texts are shorter than their literals -/

theorem Quoted.length_le {z t : Text} (h : Quoted z t) : t.length ≤ z.length := by
  induction h with
  | nil => exact Nat.le_refl 0
  | char _ _ _ ih => exact Nat.succ_le_succ ih
  | escape _ _ ih => exact Nat.le_succ_of_le (Nat.succ_le_succ ih)
  | pair _ _ ih => exact Nat.succ_le_succ (Nat.succ_le_succ ih)

theorem length_unquote? {t s after : Text} (h : unquote? t = some (s, after)) :
    s.length + after.length < t.length := by
  obtain ⟨z, rfl, hz⟩ := quoted_of_unquote? h
  have hlength := hz.length_le
  simp only [List.length_append, List.length_cons]
  omega

def Quotes (c c' : Cursor) (u : Text) : Prop :=
  ∃ front tail after, c.rest = front ++ '"' :: tail ∧ unquote? tail = some (u, after) ∧
    c'.rest.length ≤ after.length

theorem Quotes.mono {b c c' d : Cursor} {u : Text} (h : Quotes c c' u) (hb : b.Reaches c)
    (hd : c'.Reaches d) : Quotes b d u := by
  obtain ⟨front, tail, after, hrest, hunquote, hlength⟩ := h
  obtain ⟨passed, hpassed, -⟩ := hb
  have hbehind := hd.length_le
  exact ⟨passed ++ front, tail, after, by rw [hpassed, hrest, List.append_assoc], hunquote, by omega⟩

theorem Quotes.length_lt {c c' : Cursor} {u : Text} (h : Quotes c c' u) :
    u.length + c'.rest.length < c.rest.length := by
  obtain ⟨front, tail, after, hrest, hunquote, hafter⟩ := h
  have hlength := length_unquote? hunquote
  simp only [hrest, List.length_append, List.length_cons]
  omega

theorem quotes_value {also : List Text} {c c' : Cursor} {u : Text}
    (h : (value also).run c = .ok (.text u, c')) : Quotes c c' u := by
  obtain ⟨z, hz, hv⟩ := rest_of_value h
  cases hv with
  | @text q u hq => exact ⟨[], q ++ '"' :: c'.rest, c'.rest, by simp [hz], hq.unquote? _, Nat.le_refl _⟩

/-! ## Arguments -/

/-- A literal that stands for the second text is part of the first one. -/
def Holds (z u : Text) : Prop := ∃ front q back, z = front ++ '"' :: (q ++ '"' :: back) ∧ Quoted q u

theorem Holds.append {z u : Text} (h : Holds z u) (front back : Text) : Holds (front ++ (z ++ back)) u := by
  obtain ⟨x, q, y, rfl, hq⟩ := h
  exact ⟨front ++ x, q, y ++ back, by simp, hq⟩

theorem Holds.quotes {z u : Text} (h : Holds z u) : Quotes ⟨0, z⟩ ⟨0, []⟩ u := by
  obtain ⟨front, q, back, hz, hq⟩ := h
  exact ⟨front, q ++ '"' :: back, back, hz, hq.unquote? back, Nat.zero_le _⟩

def HoldsArgument (z : Text) (a : Argument) : Prop :=
  (∀ n ∈ a.name, IsName n) ∧ ∀ u, a.value = .text u → Holds z u

theorem HoldsArgument.append {z : Text} {a : Argument} (h : HoldsArgument z a) (front back : Text) :
    HoldsArgument (front ++ (z ++ back)) a := ⟨h.1, fun u hu => (h.2 u hu).append front back⟩

theorem IsValue.holds {z u : Text} (h : IsValue z (.text u)) : Holds z u := by
  cases h with
  | @text q u hq => exact ⟨[], q, [], rfl, hq⟩

theorem IsArgument.holds {z : Text} {a : Argument} (h : IsArgument z a) : HoldsArgument z a := by
  cases h with
  | @unnamed z v hv =>
      refine ⟨nofun, fun u hu => ?_⟩
      obtain rfl : v = .text u := hu
      exact hv.holds
  | @named n w w' z v hn hw hw' hv =>
      refine ⟨fun m hm => Option.some.inj hm ▸ hn, fun u hu => ?_⟩
      obtain rfl : v = .text u := hu
      simpa using hv.holds.append (n ++ (w ++ '=' :: w')) []

theorem AreArguments.holds {z : Text} {as : List Argument} (h : AreArguments z as) :
    ∀ a ∈ as, HoldsArgument z a := by
  induction h with
  | last ha => exact fun b hb => List.mem_singleton.1 hb ▸ ha.holds
  | @cons y w w' z a as ha _ _ _ ih =>
      intro b hb
      rcases List.mem_cons.1 hb with rfl | hb
      · exact ha.holds.append [] _
      · simpa using (ih b hb).append (y ++ (w ++ ',' :: w')) []

theorem IsReference.holds {z n : Text} {as : List Argument} (h : IsReference z n as) :
    IsName n ∧ ∀ a ∈ as, HoldsArgument z a := by
  cases h with
  | name hn _ => exact ⟨hn, nofun⟩
  | empty hn _ _ _ => exact ⟨hn, nofun⟩
  | @call n u w w' w'' z as hn _ _ _ _ has =>
      refine ⟨hn, fun a ha => ?_⟩
      simpa using (has.holds a ha).append (n ++ (u ++ '(' :: w)) (w' ++ ')' :: w'')

/-! ## Defaults -/

theorem quotes_parameter {defaulted : Bool} {c c' : Cursor} {q : Text × Option Value}
    (h : (parameter defaulted).run c = .ok (q, c')) : ∀ u, q.2 = some (.text u) → Quotes c c' u := by
  intro u hu
  obtain ⟨_, c₁, h₁, h⟩ := exists_of_run_bind h
  obtain ⟨n, c₂, h₂, h⟩ := exists_of_run_bind h
  obtain ⟨_, c₃, h₃, h⟩ := exists_of_run_bind h
  obtain ⟨b, c₄, h₄, h⟩ := exists_of_run_bind h
  have hbefore : c.Reaches c₄ := (advances_skipSpace.reaches h₁).trans
    (((advances_name _).reaches h₂).trans
      ((advances_skipSpace.reaches h₃).trans ((advances_eat _).reaches h₄)))
  cases b with
  | true =>
      simp only [if_true] at h
      obtain ⟨_, c₅, h₅, h⟩ := exists_of_run_bind h
      obtain ⟨v, c₆, h₆, h⟩ := exists_of_run_bind h
      obtain ⟨_, c₇, h₇, h⟩ := exists_of_run_bind h
      obtain ⟨rfl, rfl⟩ := Prod.mk.inj (Except.ok.inj h)
      obtain rfl := Option.some.inj hu
      exact (quotes_value h₆).mono (hbefore.trans (advances_skipSpace.reaches h₅))
        (advances_skipSpace.reaches h₇)
  | false =>
      cases defaulted with
      | true => cases h
      | false =>
          obtain ⟨rfl, -⟩ := Prod.mk.inj (Except.ok.inj h)
          cases hu

/-- The defaults that are texts are those of literals between the positions. -/
def DefaultsFit (ps : Params) (c c' : Cursor) : Prop :=
  ∀ q ∈ ps.optional, ∀ u, q.2 = .text u → Quotes c c' u

theorem DefaultsFit.mono {ps : Params} {b c c' d : Cursor} (h : DefaultsFit ps c c')
    (hb : b.Reaches c) (hd : c'.Reaches d) : DefaultsFit ps b d :=
  fun q hq u hu => (h q hq u hu).mono hb hd

theorem defaultsFit_add {q : Text × Option Value} {ps : Params} {c c' : Cursor}
    (hq : ∀ u, q.2 = some (.text u) → Quotes c c' u) (h : DefaultsFit ps c c') :
    DefaultsFit (Params.add q ps) c c' := by
  obtain ⟨n, v⟩ := q
  cases v with
  | none => exact h
  | some v =>
      intro p hp u hu
      rcases List.mem_cons.1 hp with rfl | hp
      · exact hq u (congrArg some hu)
      · exact h p hp u hu

theorem defaultsFit_parametersFrom {defaulted : Bool} {c : Cursor} : ∀ {c' : Cursor} {ps : Params},
    parametersFrom defaulted c = .ok (ps, c') → DefaultsFit ps c c' := by
  fun_induction parametersFrom defaulted c with
  | case1 => intro c' ps h; cases h
  | case2 => intro c' ps h; cases h
  | case3 => intro c' ps h; cases h
  | case4 defaulted c p next hp tail qs last hn hr ih =>
      intro c' ps h
      obtain ⟨rfl, rfl⟩ := Prod.mk.inj (Except.ok.inj h)
      have hlast : (next.advance 1).Reaches last := (advances_parametersFrom _).reaches hn
      have hnext := (advances_parameter _).reaches hp
      refine defaultsFit_add (fun u hu => (quotes_parameter hp u hu).mono (Cursor.Reaches.refl c) ?_) ?_
      · exact (next.reaches_advance 1).trans hlast
      · exact (ih hn).mono (hnext.trans (next.reaches_advance 1)) (Cursor.Reaches.refl last)
  | case5 defaulted c p next hp =>
      intro c' ps h
      obtain ⟨rfl, rfl⟩ := Prod.mk.inj (Except.ok.inj h)
      refine defaultsFit_add (fun u hu => (quotes_parameter hp u hu).mono (Cursor.Reaches.refl c) ?_)
        (fun q hq => absurd hq (by simp))
      exact next.reaches_advance 1
  | case6 => intro c' ps h; cases h

theorem defaultsFit_parameters {c c' : Cursor} {ps : Params} (h : parameters.run c = .ok (ps, c')) :
    DefaultsFit ps c c' := by
  obtain ⟨_, c₁, h₁, h⟩ := exists_of_run_bind h
  obtain ⟨_, c₂, h₂, h⟩ := exists_of_run_bind h
  obtain ⟨b, c₃, h₃, h⟩ := exists_of_run_bind h
  have hbefore : c.Reaches c₃ := ((advances_skip 1).reaches h₁).trans
    ((advances_skipSpace.reaches h₂).trans ((advances_eat _).reaches h₃))
  cases b with
  | true =>
      obtain ⟨rfl, -⟩ := Prod.mk.inj (Except.ok.inj h)
      exact fun q hq => absurd hq (by simp)
  | false => exact (defaultsFit_parametersFrom h).mono hbefore (Cursor.Reaches.refl c')

theorem defaultsFit_form {c c' : Cursor} {ps : Params} (h : form.run c = .ok (.block ps, c')) :
    DefaultsFit ps c c' := by
  obtain ⟨o, c₁, h₁, h⟩ := exists_of_run_bind h
  obtain ⟨rfl, rfl⟩ := Prod.mk.inj (Except.ok.inj h₁)
  split at h
  · obtain ⟨_, c₂, -, h⟩ := exists_of_run_bind h
    obtain ⟨_, c₃, -, h⟩ := exists_of_run_bind h
    obtain ⟨v, c₄, -, h⟩ := exists_of_run_bind h
    obtain ⟨_, c₅, -, h⟩ := exists_of_run_bind h
    obtain ⟨_, c₆, -, h⟩ := exists_of_run_bind h
    cases (Prod.mk.inj (Except.ok.inj h)).1
  · obtain ⟨qs, c₂, h₂, h⟩ := exists_of_run_bind h
    obtain ⟨_, c₃, h₃, h⟩ := exists_of_run_bind h
    obtain ⟨_, c₄, h₄, h⟩ := exists_of_run_bind h
    obtain ⟨heq, rfl⟩ := Prod.mk.inj (Except.ok.inj h)
    obtain rfl := Form.block.inj heq
    exact (defaultsFit_parameters h₂).mono (Cursor.Reaches.refl c)
      ((advances_skipSpace.reaches h₃).trans (advances_closeBrace.reaches h₄))
  · obtain ⟨_, c₂, -, h⟩ := exists_of_run_bind h
    obtain ⟨heq, -⟩ := Prod.mk.inj (Except.ok.inj h)
    obtain rfl := Form.block.inj heq
    exact fun q hq => absurd hq (by simp)
  · cases h

theorem defaultsFit_opening {c c' : Cursor} {o : Opening} {ps : Params}
    (h : opening.run c = .ok (o, c')) (hform : o.form = .block ps) :
    DefaultsFit ps (c.advance 1) c' := by
  obtain ⟨_, c₁, h₁, h⟩ := exists_of_run_bind h
  obtain ⟨-, rfl⟩ := Prod.mk.inj (Except.ok.inj h₁)
  obtain ⟨_, c₂, h₂, h⟩ := exists_of_run_bind h
  obtain ⟨raw, c₃, h₃, h⟩ := exists_of_run_bind h
  obtain ⟨_, c₄, h₄, h⟩ := exists_of_run_bind h
  obtain ⟨n, c₅, h₅, h⟩ := exists_of_run_bind h
  obtain ⟨_, c₆, h₆, h⟩ := exists_of_run_bind h
  obtain ⟨f, c₇, h₇, h⟩ := exists_of_run_bind h
  obtain ⟨rfl, rfl⟩ := Prod.mk.inj (Except.ok.inj h)
  obtain rfl : f = .block ps := hform
  have hbefore : (c.advance 1).Reaches c₆ := (advances_skipBlanks.reaches h₂).trans
    (((advances_eat _).reaches h₃).trans ((advances_skipBlanks.reaches h₄).trans
      (((advances_name _).reaches h₅).trans (advances_skipSpace.reaches h₆))))
  exact (defaultsFit_form h₇).mono hbefore (Cursor.Reaches.refl _)

end Reader

open Reader (IsName Quotes)

theorem SlotText.isName {z : Text} {s : Slot} (h : SlotText z s) (hexpr : s.expr = none) :
    IsName s.name := by
  cases h.isSlot with
  | reference raw _ _ hz => exact hz.holds.1
  | expression => cases hexpr

theorem SlotText.args_eq {z : Text} {s : Slot} (h : SlotText z s) (hexpr : s.expr ≠ none) :
    s.args = [] := by
  cases h.isSlot with
  | reference => exact absurd rfl hexpr
  | expression => rfl

/-- The arguments are parts of the slot. -/
theorem SlotText.holds {z : Text} {s : Slot} (h : SlotText z s) {a : Argument} (ha : a ∈ s.args) :
    Reader.HoldsArgument z a := by
  cases h.isSlot with
  | @reference w w' y n as raw _ _ hy =>
      have hholds := (hy.holds.2 a ha).append ('{' :: '{' :: (w ++ ((if raw then ['@'] else []) ++ w')))
        Reader.slotEnd
      simpa using hholds
  | expression => cases ha

theorem SlotText.isName_argument {z : Text} {s : Slot} (h : SlotText z s) {a : Argument}
    (ha : a ∈ s.args) : ∀ n ∈ a.name, IsName n := (h.holds ha).1

/-- A text among the arguments of a slot is that of a literal in it. -/
theorem SlotText.quotes {z : Text} {s : Slot} (h : SlotText z s) {a : Argument}
    (ha : a ∈ s.args) {u : Text} (hu : a.value = .text u) : Quotes ⟨0, z⟩ ⟨0, []⟩ u :=
  ((h.holds ha).2 u hu).quotes

theorem SlotText.length_argument {z : Text} {s : Slot} (h : SlotText z s) {a : Argument}
    (ha : a ∈ s.args) {u : Text} (hu : a.value = .text u) : u.length < z.length :=
  (h.quotes ha hu).length_lt

end Stencil
