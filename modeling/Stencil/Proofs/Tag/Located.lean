import Stencil.Tag.Node

/-! # Where nodes are found

`Located c ns` follows the nodes of a text that is read from a cursor: each is a character of text, a slot
or a definition, found where one begins. -/
set_option autoImplicit false
namespace Stencil

inductive Located : Cursor → List Node → Prop
  | nil {c : Cursor} : c.rest = [] → Located c []
  | text {c : Cursor} {ch : Char} {rest : Text} {ns : List Node} :
      c.rest = ch :: rest → lead c.rest = .text → Located (c.advance 1) ns →
      Located c (Node.consText ch ns)
  | slot {c next : Cursor} {s : Slot} {ns : List Node} :
      lead c.rest = .slot → Reader.slot.run c = .ok (s, next) → Located next ns →
      Located c (.slot s (c.upto next) :: ns)
  | define {c next : Cursor} {d : Definition} {source : DefinitionSource} {ns : List Node} :
      lead c.rest = .opening → Node.definition c = .ok (d, source, next) → Located next ns →
      Located c (.define d source :: ns)

theorem located_of_from? {c : Cursor} : ∀ {ns : List Node}, Node.from? c = .ok ns → Located c ns := by
  fun_induction Node.from? c with
  | case1 c hc =>
      intro ns h
      obtain rfl := Except.ok.inj h
      exact .nil hc
  | case2 => intro ns h; cases h
  | case3 c ch rest hc hlead ms hms ih =>
      intro ns h
      obtain rfl := Except.ok.inj h
      exact .text hc hlead (ih hms)
  | case4 => intro ns h; cases h
  | case5 => intro ns h; cases h
  | case6 c ch rest hc hlead s next hslot ms hms ih =>
      intro ns h
      obtain rfl := Except.ok.inj h
      exact .slot hlead hslot (ih hms)
  | case7 => intro ns h; cases h
  | case8 => intro ns h; cases h
  | case9 => intro ns h; cases h
  | case10 => intro ns h; cases h
  | case11 c ch rest hc hlead d source next hdef ms hms ih =>
      intro ns h
      obtain rfl := Except.ok.inj h
      exact .define hlead hdef (ih hms)

theorem located_of_parse {t : Text} {ns : List Node} (h : parse t = .ok ns) :
    Located (Cursor.start t) ns := by
  unfold parse at h
  cases hc : Node.from? (Cursor.start t) with
  | error e => rw [hc] at h; cases h
  | ok ms =>
      rw [hc] at h
      obtain rfl := Except.ok.inj h
      exact located_of_from? hc

namespace Node

@[simp] theorem slot_mem_consText {ch : Char} {ns : List Node} {s : Slot} {z : Text} :
    .slot s z ∈ consText ch ns ↔ .slot s z ∈ ns := by
  cases ns with
  | nil => simp [consText]
  | cons n ns => cases n <;> simp [consText]

@[simp] theorem define_mem_consText {ch : Char} {ns : List Node} {d : Definition}
    {s : DefinitionSource} : .define d s ∈ consText ch ns ↔ .define d s ∈ ns := by
  cases ns with
  | nil => simp [consText]
  | cons n ns => cases n <;> simp [consText]

end Node

theorem Located.exists_slot {c : Cursor} {ns : List Node} {s : Slot} {z : Text} (h : Located c ns) :
    .slot s z ∈ ns → ∃ c₁ next, lead c₁.rest = .slot ∧ Reader.slot.run c₁ = .ok (s, next) ∧
      c₁.upto next = z := by
  induction h with
  | nil _ => intro hs; exact absurd hs (by simp)
  | text _ _ _ ih => intro hs; exact ih (Node.slot_mem_consText.1 hs)
  | @slot c next s' ns hlead hslot _ ih =>
      intro hs
      rcases List.mem_cons.1 hs with heq | hs
      · obtain ⟨rfl, rfl⟩ := Node.slot.inj heq
        exact ⟨c, next, hlead, hslot, rfl⟩
      · exact ih hs
  | define _ _ _ ih => intro hs; exact ih (by simpa using hs)

theorem Located.exists_define {c : Cursor} {ns : List Node} {d : Definition} {source : DefinitionSource}
    (h : Located c ns) : .define d source ∈ ns → ∃ c₁ next, lead c₁.rest = .opening ∧
      Node.definition c₁ = .ok (d, source, next) := by
  induction h with
  | nil _ => intro hd; exact absurd hd (by simp)
  | text _ _ _ ih => intro hd; exact ih (Node.define_mem_consText.1 hd)
  | slot _ _ _ ih => intro hd; exact ih (by simpa using hd)
  | @define c next d' source' ns hlead hdef _ ih =>
      intro hd
      rcases List.mem_cons.1 hd with heq | hd
      · obtain ⟨rfl, rfl⟩ := Node.define.inj heq
        exact ⟨c, next, hlead, hdef⟩
      · exact ih hd

end Stencil
