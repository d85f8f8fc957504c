import Stencil.Proofs.Code.Bounds
import Stencil.Proofs.Tag.Plain
import Stencil.Proofs.Tag.Written

/-! # What the parts of a template stand for

No placeholder goes over the end of a node, so that each node of a text that stands for something stands
for something itself, and so do the parts of a definition and the arguments of a slot
(`Located.stands`). A slot that is written out again stands for something if its arguments do
(`stands_source`). -/
set_option autoImplicit false
namespace Stencil

open Vault (Cuts Ordinary placeholder)

variable {strict : Prop} {v : Vault}

/-! ## Literals -/

namespace Reader

theorem unquote?_append {s : Text} (hs : ∀ c ∈ s, c ≠ '\\' ∧ c ≠ '"') (t : Text) :
    unquote? (s ++ t) = (unquote? t).map fun (u, after) => (s ++ u, after) := by
  induction s with
  | nil => simp
  | cons c s ih =>
      obtain ⟨hslash, hquote⟩ := hs c (List.mem_cons_self ..)
      rw [List.cons_append, unquote?_cons hslash, if_neg hquote,
        ih fun d hd => hs d (List.mem_cons_of_mem _ hd), Option.map_map]
      rfl

theorem unquote?_placeholder (i : Nat) (t : Text) :
    unquote? (placeholder i ++ t) = (unquote? t).map fun (u, after) => (placeholder i ++ u, after) := by
  refine unquote?_append (fun c hc => ?_) t
  rcases Vault.mem_placeholder hc with rfl | hdigit | rfl
  · exact ⟨by decide, by decide⟩
  · refine ⟨?_, ?_⟩ <;> (rintro rfl; exact absurd hdigit (by decide))
  · exact ⟨by decide, by decide⟩

/-- A backslash that is left before a character, or what stands for both. -/
theorem stands_unescape {d : Char} {t : Text}
    (hcons : ∀ {s : Text}, v.Stands strict s → v.Stands strict (d :: s)) (ht : v.Stands strict t) :
    v.Stands strict (unescape d ++ t) := by
  have hplain : ∀ {s : Text}, Ordinary s → v.Stands strict s := fun h => .of_ordinary v h
  unfold unescape
  repeat' split
  · exact (hplain (by decide)).append ht
  · exact (hplain (by decide)).append ht
  · exact hcons ht
  · exact (hplain (s := ['\\']) (by decide)).append (hcons ht)

/-- By induction on the length, as a placeholder is passed over in one step. -/
theorem stands_unquote? : ∀ (k : Nat) {t s after : Text}, t.length ≤ k →
    v.Stands strict t → unquote? t = some (s, after) → v.Stands strict s := by
  intro k
  induction k with
  | zero =>
      intro t s after hk _ hs
      obtain rfl : t = [] := List.length_eq_zero_iff.1 (by omega)
      cases hs
  | succ k ih =>
      intro t s after hk h hs
      cases t with
      | nil => cases hs
      | cons c rest =>
          rw [List.length_cons] at hk
          by_cases hmark : c = placeholderOpen
          · subst hmark
            obtain ⟨i, u, hu, hshort, hp, hrest⟩ := h.exists_of_open
            rw [hu, unquote?_placeholder] at hs
            obtain ⟨⟨s', after'⟩, hs', heq⟩ := Option.map_eq_some_iff.1 hs
            obtain ⟨rfl, rfl⟩ := Prod.mk.inj heq
            exact hp.append (ih (by omega) hrest hs')
          · obtain ⟨hrest, hcons⟩ := h.tail hmark
            by_cases hslash : c = '\\'
            · subst hslash
              cases rest with
              | nil => cases hs
              | cons d rest =>
                  rw [List.length_cons] at hk
                  rw [unquote?] at hs
                  obtain ⟨⟨s', after'⟩, hs', heq⟩ := Option.map_eq_some_iff.1 hs
                  obtain ⟨rfl, rfl⟩ := Prod.mk.inj heq
                  by_cases hd : d = placeholderOpen
                  · subst hd
                    -- a backslash before a placeholder stays, and so does the placeholder
                    have hnext : unquote? (placeholderOpen :: rest) =
                        some (placeholderOpen :: s', after') := by
                      rw [unquote?_cons (by decide), if_neg (by decide), hs']
                      rfl
                    exact hcons (ih (by rw [List.length_cons]; omega) hrest hnext)
                  · obtain ⟨hbehind, hnext⟩ := hrest.tail hd
                    exact stands_unescape hnext (ih (by omega) hbehind hs')
            · rw [unquote?_cons hslash] at hs
              by_cases hquote : c = '"'
              · rw [if_pos hquote] at hs
                obtain ⟨rfl, -⟩ := Prod.mk.inj (Option.some.inj hs)
                exact .nil v
              · rw [if_neg hquote] at hs
                obtain ⟨⟨s', after'⟩, hs', heq⟩ := Option.map_eq_some_iff.1 hs
                obtain ⟨rfl, rfl⟩ := Prod.mk.inj heq
                exact hcons (ih (by omega) hrest hs')

/-- A literal in a text that stands for something. -/
theorem Quotes.stands {c c' : Cursor} {u : Text} (h : Quotes c c' u) (hc : v.Stands strict c.rest) :
    v.Stands strict u := by
  obtain ⟨front, tail, after, hrest, hu, -⟩ := h
  rw [hrest, List.append_cons] at hc
  exact stands_unquote? tail.length (Nat.le_refl _) (hc.cut (.inl (by simp; decide))).2 hu

end Reader

/-! ## Values and definitions -/

/-- A text that is the value stands for something. -/
def Value.Stands (strict : Prop) (v : Vault) (x : Value) : Prop := ∀ t, x = .text t → v.Stands strict t

theorem Value.Stands.grow {w : Vault} {x : Value} (h : x.Stands strict v) (hw : v.segments <+: w.segments) :
    x.Stands strict w := fun t ht => (h t ht).grow hw

theorem stands_formatNumber (v : Vault) (x : Float) : v.Stands strict (formatNumber x) :=
  .of_not_mem v (not_mem_formatNumber x ⟨by decide, by decide, by decide⟩)
    fun _ => not_mem_formatNumber x ⟨by decide, by decide, by decide⟩

theorem Value.Stands.display {x : Value} (h : x.Stands strict v) : v.Stands strict x.display := by
  cases x with
  | text t => exact h t rfl
  | number x => exact stands_formatNumber v x

def Argument.Stands (strict : Prop) (v : Vault) (a : Argument) : Prop :=
  (∀ m ∈ a.name, Ordinary m) ∧ a.value.Stands strict v

theorem Argument.Stands.grow {w : Vault} {a : Argument} (h : a.Stands strict v)
    (hw : v.segments <+: w.segments) : a.Stands strict w := ⟨h.1, h.2.grow hw⟩

def Definition.Stands (strict : Prop) (v : Vault) (d : Definition) : Prop :=
  v.Stands strict d.content ∧ ∀ p ∈ d.optional, p.2.Stands strict v

theorem Definition.Stands.grow {w : Vault} {d : Definition} (h : d.Stands strict v)
    (hw : v.segments <+: w.segments) : d.Stands strict w :=
  ⟨h.1.grow hw, fun p hp => (h.2 p hp).grow hw⟩

/-! ## Nodes -/

/-- No placeholder goes over the end of a node: text ends before a brace, a tag behind a brace or behind
the line break that it takes. -/
def Parted : List Node → Prop
  | [] => True
  | .text _ :: ns => (∀ c ∈ (ns.flatMap Node.source).head?, c = '{') ∧ Parted ns
  | n :: ns => (∀ c ∈ n.source.getLast?, c = '}' ∨ c = '\n') ∧ Parted ns

theorem cuts_of_getLast? {s : Text} (hs : ∀ c ∈ s.getLast?, c = '}' ∨ c = '\n') (t : Text) :
    Cuts s t := by
  refine .inl fun c hc => ?_
  rcases hs c hc with rfl | rfl <;> exact ⟨by decide, by decide⟩

theorem cuts_of_head? (s : Text) {t : Text} (ht : ∀ c ∈ t.head?, c = '{') : Cuts s t := by
  refine .inr fun c hc => ?_
  rw [ht c hc]
  exact ⟨by decide, by decide⟩

theorem Parted.stands : ∀ {ns : List Node}, Parted ns → v.Stands strict (ns.flatMap Node.source) →
    ∀ node ∈ ns, v.Stands strict node.source := by
  intro ns
  induction ns with
  | nil => intro _ _ node hnode; exact absurd hnode (by simp)
  | cons first ns ih =>
      intro hns h node hnode
      rw [List.flatMap_cons] at h
      have hcut : Cuts first.source (ns.flatMap Node.source) ∧ Parted ns := by
        cases first with
        | text s => exact ⟨cuts_of_head? s hns.1, hns.2⟩
        | define d source => exact ⟨cuts_of_getLast? hns.1 _, hns.2⟩
        | slot s z => exact ⟨cuts_of_getLast? hns.1 _, hns.2⟩
      obtain ⟨hfirst, hrest⟩ := h.cut hcut.1
      rcases List.mem_cons.1 hnode with rfl | hnode
      · exact hfirst
      · exact ih hcut.2 hrest node hnode

theorem Located.lead_ne {c : Cursor} {first : Node} {ns : List Node} (h : Located c (first :: ns))
    (hfirst : ∀ s, first ≠ .text s) : lead c.rest ≠ .text := by
  generalize hu : first :: ns = u at h
  cases h with
  | nil _ => cases hu
  | @text _ ch _ ms _ _ _ =>
      cases ms with
      | nil => exact absurd (List.cons.inj hu).1 (hfirst _)
      | cons m ms => cases m <;> exact absurd (List.cons.inj hu).1 (hfirst _)
  | slot hlead _ _ => rw [hlead]; exact nofun
  | define hlead _ _ => rw [hlead]; exact nofun

theorem Located.parted {c : Cursor} {ns : List Node} (h : Located c ns) : Parted ns := by
  induction h with
  | nil _ => trivial
  | @text c ch rest ns hc hlead hns ih =>
      cases ns with
      | nil => exact ⟨by simp, trivial⟩
      | cons first ns =>
          have hbrace : (∀ s, first ≠ .text s) →
              ∀ e ∈ ((first :: ns).flatMap Node.source).head?, e = '{' := by
            intro hfirst e he
            obtain ⟨u, hu⟩ := exists_cons_of_lead (hns.lead_ne hfirst)
            rw [hns.flatMap_source, hu] at he
            simpa using he.symm
          cases first with
          | text s => exact ih
          | define d source => exact ⟨hbrace nofun, ih⟩
          | slot s z => exact ⟨hbrace nofun, ih⟩
  | @slot c next s ns hlead hslot _ ih =>
      refine ⟨fun e he => ?_, ih⟩
      obtain ⟨y, hy⟩ := (slotText_of_run hlead hslot).1.exists_append
      rw [Node.source, hy] at he
      exact .inl (by simpa [Reader.slotEnd] using he.symm)
  | define _ hdef _ ih => exact ⟨(source_of_definition hdef).2, ih⟩

/-! ## Parts of tags -/

theorem Reader.IsName.ordinary {m : Text} (h : Reader.IsName m) : Ordinary m := by
  intro c hc
  have hname := h.isNameChar c hc
  constructor <;> (rintro rfl; exact absurd hname (by decide))

theorem SlotText.stands {z : Text} {s : Slot} (h : SlotText z s) (hz : v.Stands strict z) :
    ∀ a ∈ s.args, a.Stands strict v := by
  refine fun a ha => ⟨fun m hm => (h.isName_argument ha m hm).ordinary, fun u hu => ?_⟩
  exact (h.quotes ha hu).stands hz

theorem getLast?_opening {c next : Cursor} {d : Definition} {source : DefinitionSource}
    (h : Node.definition c = .ok (d, source, next)) :
    ∀ e ∈ source.opening.getLast?, e = '}' ∨ e = '\n' := by
  intro e he
  obtain ⟨o, mid, ho, hopening⟩ := opening_of_definition h
  obtain ⟨y, hy⟩ := upto_of_opening ho
  rw [hopening, hy] at he
  exact .inl (by simpa using he.symm)

theorem stands_trimLineBreaks {t : Text} (h : v.Stands strict t) : v.Stands strict (trimLineBreaks t) := by
  obtain ⟨a, b, ha, hb, ht⟩ := exists_trimLineBreaks t
  rw [ht] at h
  have hfront : v.Stands strict (trimLineBreaks t ++ b) := by
    rcases ha with rfl | rfl | rfl
    · exact h
    · exact (h.tail (by decide)).1
    · exact ((h.tail (by decide)).1.tail (by decide)).1
  refine (hfront.cut (.inr ?_)).1
  rcases hb with rfl | rfl | rfl <;> simp <;> decide

/-- The parts of a definition, and the definition. -/
theorem stands_of_definition {c next : Cursor} {d : Definition} {source : DefinitionSource}
    (hlead : lead c.rest = .opening) (h : Node.definition c = .ok (d, source, next))
    (hs : v.Stands strict source.text) :
    v.Stands strict source.opening ∧ (∀ body ∈ source.body, v.Stands strict body) ∧
      v.Stands strict source.closing ∧ d.Stands strict v := by
  have hopening := getLast?_opening h
  rw [DefinitionSource.text, List.append_assoc] at hs
  obtain ⟨ho, hrest⟩ := hs.cut (cuts_of_getLast? hopening _)
  cases hbody : source.body with
  | none =>
      rw [hbody, Option.getD_none, List.nil_append] at hrest
      obtain ⟨htext, -, -⟩ := exists_of_definition_single hlead h hbody
      obtain ⟨-, hoptional, hcontent⟩ := htext.exists_of_single
      refine ⟨ho, by simp, hrest, ?_, fun p hp => absurd hp (by simp [hoptional])⟩
      rcases hcontent with ⟨x, hx⟩ | ⟨front, tail, after, hsplit, hu⟩
      · rw [hx]
        exact stands_formatNumber v x
      · have hquotes : Reader.Quotes ⟨0, source.opening⟩ ⟨0, []⟩ d.content :=
          ⟨front, tail, after, hsplit, hu, Nat.zero_le _⟩
        exact hquotes.stands ho
  | some body =>
      obtain ⟨o, mid, ps, z, r, hrun, hform, hoptional, hcontent, htag, hclosing, -⟩ :=
        block_of_definition h hbody
      rw [hbody, Option.getD_some] at hrest
      obtain ⟨hb, hc⟩ := hrest.cut (cuts_of_head? body (by rw [hclosing]; simp))
      refine ⟨ho, fun u hu => Option.some.inj hu ▸ hb, hc, ?_, fun p hp u hu => ?_⟩
      · rw [hcontent]
        exact stands_trimLineBreaks hb
      · have htakes := (openingText_of_run hlead hrun).1.2 [] 0
        rw [List.append_nil, ← htag] at htakes
        rw [hoptional] at hp
        have hquotes := (Reader.defaultsFit_opening htakes hform p hp u hu).mono
          (Cursor.reaches_advance ⟨0, source.opening⟩ 1) (Cursor.Reaches.refl _)
        exact hquotes.stands ho

/-- What a node holds stands for something. -/
def Node.Stands (strict : Prop) (v : Vault) : Node → Prop
  | .text t => v.Stands strict t
  | .slot s z => SlotText z s ∧ v.Stands strict z
  | .define d source => v.Stands strict source.opening ∧ (∀ body ∈ source.body, v.Stands strict body) ∧
      v.Stands strict source.closing ∧ d.Stands strict v

theorem Node.Stands.grow {w : Vault} {node : Node} (h : node.Stands strict v)
    (hw : v.segments <+: w.segments) : node.Stands strict w := by
  cases node with
  | text t => exact Vault.Stands.grow h hw
  | slot s z => exact ⟨h.1, h.2.grow hw⟩
  | define d source =>
      obtain ⟨hopening, hbody, hclosing, hd⟩ := h
      exact ⟨hopening.grow hw, fun u hu => (hbody u hu).grow hw, hclosing.grow hw, hd.grow hw⟩

theorem Located.stands {c : Cursor} {ns : List Node} (h : Located c ns) (hc : v.Stands strict c.rest) :
    ∀ node ∈ ns, node.Stands strict v := by
  rw [← h.flatMap_source] at hc
  have hsources := h.parted.stands hc
  intro node hnode
  cases node with
  | text t => exact hsources _ hnode
  | slot s z => exact ⟨h.slotText hnode, hsources _ hnode⟩
  | define d source =>
      obtain ⟨c₁, next, hlead, hdef⟩ := h.exists_define hnode
      exact stands_of_definition hlead hdef (hsources _ hnode)

/-! ## Slots that are written out -/

/-- A character that may stand before a text may do so as part of a literal. -/
theorem stands_literalChar {c : Char} {t : Text}
    (hcons : ∀ {s : Text}, v.Stands strict s → v.Stands strict (c :: s)) (ht : v.Stands strict t) :
    v.Stands strict (Value.literalChar c ++ t) := by
  unfold Value.literalChar
  repeat' split
  all_goals first
    | exact hcons ht
    | exact (Vault.Stands.of_ordinary v (by decide)).append ht

theorem flatMap_literalChar_placeholder (i : Nat) :
    (placeholder i).flatMap Value.literalChar = placeholder i := by
  have hsame : ∀ c ∈ placeholder i, Value.literalChar c = [c] := by
    intro c hc
    rcases Vault.mem_placeholder hc with rfl | hdigit | rfl
    · rfl
    · unfold Value.literalChar
      repeat' split
      all_goals first
        | rfl
        | (subst c; exact absurd hdigit (by decide))
    · rfl
  rw [List.flatMap_congr hsame, List.flatMap_singleton']

/-- By induction on the length, as a placeholder is passed over in one step. -/
theorem stands_literal : ∀ (k : Nat) {t : Text}, t.length ≤ k → v.Stands strict t →
    v.Stands strict (t.flatMap Value.literalChar) := by
  intro k
  induction k with
  | zero =>
      intro t hk h
      obtain rfl : t = [] := List.length_eq_zero_iff.1 (by omega)
      exact h
  | succ k ih =>
      intro t hk h
      cases t with
      | nil => exact h
      | cons c rest =>
          rw [List.length_cons] at hk
          by_cases hmark : c = placeholderOpen
          · subst hmark
            obtain ⟨i, u, hu, hshort, hp, hrest⟩ := h.exists_of_open
            rw [hu, List.flatMap_append, flatMap_literalChar_placeholder]
            exact hp.append (ih (by omega) hrest)
          · obtain ⟨hrest, hcons⟩ := h.tail hmark
            rw [List.flatMap_cons]
            exact stands_literalChar hcons (ih (by omega) hrest)

theorem Value.Stands.literal {x : Value} (h : x.Stands strict v) : v.Stands strict x.literal := by
  cases x with
  | number x => exact stands_formatNumber v x
  | text t =>
      exact ((Vault.Stands.of_ordinary v (t := ['"']) (by decide)).append
        (stands_literal t.length (Nat.le_refl _) (h t rfl))).append (.of_ordinary v (by decide))

theorem Argument.Stands.source {a : Argument} (h : a.Stands strict v) : v.Stands strict a.source := by
  unfold Argument.source
  cases hname : a.name with
  | none => exact h.2.literal
  | some m =>
      have hfront : Ordinary (m ++ ['=']) := (h.1 m hname).append (by decide)
      have hall := (Vault.Stands.of_ordinary v hfront).append h.2.literal
      rwa [List.append_assoc] at hall

theorem stands_join_source : ∀ {as : List Argument}, (∀ a ∈ as, a.Stands strict v) →
    v.Stands strict (Text.join ", ".toList (as.map Argument.source)) := by
  intro as
  induction as with
  | nil => intro _; exact .nil v
  | cons a as ih =>
      intro h
      have ha := (h a (List.mem_cons_self ..)).source
      have has := ih fun b hb => h b (List.mem_cons_of_mem _ hb)
      cases as with
      | nil => simpa [Text.join] using ha
      | cons b as =>
          rw [Reader.join_source_cons]
          exact ha.append (Vault.Stands.append (s := [',', ' ']) (.of_ordinary v (by decide)) has)

theorem stands_source {s : Slot} (hname : Ordinary s.name) (hargs : ∀ a ∈ s.args, a.Stands strict v) :
    v.Stands strict s.source := by
  have hplain : ∀ {t : Text}, Ordinary t → v.Stands strict t := fun h => .of_ordinary v h
  have hinside : v.Stands strict (if s.expr.isNone ∧ s.args ≠ [] then
      '(' :: Text.join ", ".toList (s.args.map Argument.source) ++ [')'] else []) := by
    split
    · exact (Vault.Stands.append (s := ['(']) (hplain (by decide)) (stands_join_source hargs)).append
        (hplain (by decide))
    · exact hplain (by decide)
  refine Vault.Stands.append (Vault.Stands.append (hplain ?_) hinside) (hplain (by decide))
  cases s.raw
  · exact Ordinary.append (s := ['{', '{']) (by decide) hname
  · exact Ordinary.append (s := ['{', '{', '@']) (by decide) hname

end Stencil
