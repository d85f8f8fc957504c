import Stencil.Proofs.Tag.Parts
import Stencil.Substitution

/-! # Names in content

`Exposes names t` says that a substitution of the names still finds a slot to replace in `t`: one of
its own, one in a text argument, or one in the content of a definition that is not raw and does not
declare the name. `Tidy` is the content of which every part is read in the same way before and after a
substitution. -/
set_option autoImplicit false
namespace Stencil

def Slot.isReplaced (names : List Text) (s : Slot) : Bool :=
  names ≠ [] &&
    match s.expr with
    | some e => e.names.all names.contains
    | none => s.args = [] && names.contains s.name

theorem isReplaced_nil (s : Slot) : s.isReplaced [] = false := by
  simp [Slot.isReplaced]

/-- The names that a definition does not hide in its content. -/
def Definition.visible (d : Definition) (names : List Text) : List Text :=
  names.filter fun n => !d.hasParam n

def showsSlot (t : Text) : Bool := (Text.before? ['{', '{'] t).isSome

inductive Exposes : List Text → Text → Prop
  | slot {names : List Text} {t : Text} {ns : List Node} {s : Slot} :
      parse t = .ok ns → .slot s ∈ insides ns → s.isReplaced names = true → Exposes names t
  | argument {names : List Text} {t u : Text} {ns : List Node} {s : Slot} {a : Argument} :
      parse t = .ok ns → .slot s ∈ insides ns → a ∈ s.args → a.value = .text u → Exposes names u →
      Exposes names t
  | body {names : List Text} {t body : Text} {ns : List Node} {d : Definition} :
      parse t = .ok ns → .define d (some body) ∈ insides ns → d.raw = false →
      Exposes (d.visible names) body → Exposes names t

/-! ## Texts without slots -/

theorem exists_of_mem_insides {ns : List Node} {i : Inside} (h : i ∈ insides ns) :
    (∃ s z, i = .slot s ∧ .slot s z ∈ ns) ∨
      ∃ d source, i = .define d source.body ∧ .define d source ∈ ns := by
  induction ns with
  | nil => exact absurd h (by simp [insides])
  | cons n ns ih =>
      have hlater : i ∈ insides ns → (∃ s z, i = .slot s ∧ .slot s z ∈ n :: ns) ∨
          ∃ d source, i = .define d source.body ∧ .define d source ∈ n :: ns := by
        intro hi
        rcases ih hi with ⟨s, z, rfl, hs⟩ | ⟨d, source, rfl, hd⟩
        · exact .inl ⟨s, z, rfl, List.mem_cons_of_mem _ hs⟩
        · exact .inr ⟨d, source, rfl, List.mem_cons_of_mem _ hd⟩
      cases n with
      | text source => exact hlater h
      | slot s z =>
          rcases List.mem_cons.1 h with rfl | h
          · exact .inl ⟨s, z, rfl, List.mem_cons_self ..⟩
          · exact hlater h
      | define d source =>
          rcases List.mem_cons.1 h with rfl | h
          · exact .inr ⟨d, source, rfl, List.mem_cons_self ..⟩
          · exact hlater h

theorem before?_cons_isSome {c : Char} {s t : Text} (h : (Text.before? s t).isSome = true) :
    (Text.before? s (c :: t)).isSome = true := by
  unfold Text.before?
  split
  · rfl
  · simpa using h

theorem showsSlot_append {s t : Text} (h : showsSlot t = true) (u : Text) :
    showsSlot (s ++ (t ++ u)) = true := by
  have hright : showsSlot (t ++ u) = true := by
    induction t with
    | nil => exact absurd h (by decide)
    | cons c t ih =>
        unfold showsSlot Text.before? at h
        by_cases hstart : Text.startsWith (c :: t) ['{', '{'] = true
        · obtain ⟨v, hv⟩ := List.isPrefixOf_iff_prefix.1 hstart
          have hshow : Text.startsWith (c :: t ++ u) ['{', '{'] = true := by
            rw [← hv]
            exact List.isPrefixOf_iff_prefix.2 ⟨v ++ u, by simp⟩
          unfold showsSlot
          rw [List.cons_append] at hshow ⊢
          unfold Text.before?
          rw [if_pos hshow]
          rfl
        · rw [if_neg hstart] at h
          exact before?_cons_isSome (ih (by simpa [showsSlot] using h))
  induction s with
  | nil => exact hright
  | cons c s ih => exact before?_cons_isSome ih

theorem showsSlot_of_mem {ns : List Node} {n : Node} (hn : n ∈ ns)
    (h : showsSlot n.source = true) : showsSlot (ns.flatMap Node.source) = true := by
  obtain ⟨before, after, rfl⟩ := List.append_of_mem hn
  rw [List.flatMap_append, List.flatMap_cons]
  exact showsSlot_append h _

theorem SlotText.showsSlot {z : Text} {s : Slot} (h : SlotText z s) : showsSlot z = true := by
  obtain ⟨u, rfl⟩ := h.exists_cons
  exact showsSlot_append (s := []) (t := ['{', '{']) (by decide) u

/-- What exposes a name shows a slot. -/
theorem Exposes.showsSlot {names : List Text} {t : Text} (h : Exposes names t) :
    showsSlot t = true := by
  have hshows : ∀ {t : Text} {ns : List Node} {s : Slot}, parse t = .ok ns →
      .slot s ∈ insides ns → Stencil.showsSlot t = true := by
    intro t ns s hns hs
    have hlocated := located_of_parse hns
    rcases exists_of_mem_insides hs with ⟨s', z, heq, hmem⟩ | ⟨d, source, heq, -⟩
    · have hsource := showsSlot_of_mem hmem (hlocated.slotText hmem).showsSlot
      rwa [hlocated.flatMap_source] at hsource
    · cases heq
  induction h with
  | slot hns hs _ => exact hshows hns hs
  | argument hns hs _ _ _ _ => exact hshows hns hs
  | @body names t body ns d hns hd _ _ ih =>
      have hlocated := located_of_parse hns
      rcases exists_of_mem_insides hd with ⟨s, z, heq, -⟩ | ⟨d', source, heq, hmem⟩
      · cases heq
      · obtain ⟨rfl, hbody⟩ := Inside.define.inj heq
        have hsource : Stencil.showsSlot (Node.define d source).source = true := by
          simp only [Node.source, DefinitionSource.text, ← hbody, Option.getD_some,
            List.append_assoc]
          exact showsSlot_append ih _
        have hall := showsSlot_of_mem hmem hsource
        rwa [hlocated.flatMap_source] at hall

/-! ## Parts are shorter -/

theorem length_le_of_mem {ns : List Node} {n : Node} (h : n ∈ ns) :
    n.source.length ≤ (ns.flatMap Node.source).length := by
  obtain ⟨front, rear, rfl⟩ := List.append_of_mem h
  simp only [List.flatMap_append, List.flatMap_cons, List.length_append]
  omega

/-- The content of a block that is not raw is shorter than the block. -/
theorem length_body_lt {c : Cursor} {ns : List Node} {d : Definition} {source : DefinitionSource}
    {body : Text} (h : Located c ns) (hd : .define d source ∈ ns) (hraw : d.raw = false)
    (hbody : source.body = some body) : body.length < c.rest.length := by
  obtain ⟨c₁, next, hlead, hdef⟩ := h.exists_define hd
  obtain ⟨closing, br, o, ps, offset, ho, -⟩ := exists_of_definition_block hlead hdef hbody hraw
  have hle := length_le_of_mem hd
  rw [h.flatMap_source] at hle
  obtain ⟨u, hu⟩ := exists_cons_of_lead (t := source.opening ++ []) (by rw [ho.1 []]; decide)
  rw [List.append_nil] at hu
  simp only [Node.source, DefinitionSource.text, hbody, Option.getD_some, List.length_append, hu,
    List.length_cons] at hle
  omega

theorem length_argument_lt {c : Cursor} {ns : List Node} {s : Slot} {z u : Text} {a : Argument}
    (h : Located c ns) (hs : .slot s z ∈ ns) (ha : a ∈ s.args) (hu : a.value = .text u) :
    u.length < c.rest.length := by
  have hlt := (h.slotText hs).length_argument ha hu
  have hle := length_le_of_mem hs
  rw [h.flatMap_source] at hle
  exact Nat.lt_of_lt_of_le hlt hle

theorem slot_mem_insides {s : Slot} {z : Text} : ∀ {ns : List Node}, .slot s z ∈ ns →
    .slot s ∈ insides ns := by
  intro ns
  induction ns with
  | nil => intro h; exact absurd h (by simp)
  | cons n ns ih =>
      intro h
      rcases List.mem_cons.1 h with rfl | hlater
      · exact List.mem_cons_self ..
      · cases n with
        | text t => exact ih hlater
        | slot s' z' => exact List.mem_cons_of_mem _ (ih hlater)
        | define d source => exact List.mem_cons_of_mem _ (ih hlater)

end Stencil
