import Stencil.Proofs.Substitution.Content

/-! # What a substitution leaves

`Follows names is js` relates the slots and definitions of content to those of its expansion: slots over
the names are gone, the other slots stay with arguments that expose none of them, definitions stay, and
a definition that is raw or declares all of the names stays as it is. -/
set_option autoImplicit false
namespace Stencil

/-- The slot stays, and its text arguments expose none of the names. -/
structure SlotKept (names : List Text) (s s' : Slot) : Prop where
  stays : s.isReplaced names = false
  name : s'.name = s.name
  raw : s'.raw = s.raw
  expr : s'.expr = s.expr
  args : s'.args = [] ↔ s.args = []
  hides : ∀ a ∈ s'.args, ∀ u, a.value = .text u → ¬Exposes names u

/-- The definition stays, and what it does not hide from a substitution exposes none of the names. -/
structure DefinitionKept (names : List Text) (d : Definition) (body : Option Text) (d' : Definition)
    (body' : Option Text) : Prop where
  name : d'.name = d.name
  required : d'.required = d.required
  optional : d'.optional = d.optional
  raw : d'.raw = d.raw
  fixed : d.raw = true ∨ body = none ∨ d.visible names = [] → d' = d ∧ body' = body
  hides : d.raw = false → ∀ b, body' = some b → ¬Exposes (d.visible names) b

/-- What slots and definitions a substitution leaves of those in the content. -/
inductive Follows (names : List Text) : List Inside → List Inside → Prop
  | nil : Follows names [] []
  | replaced {s : Slot} {is js : List Inside} : s.isReplaced names = true → Follows names is js →
      Follows names (.slot s :: is) js
  | slot {s s' : Slot} {is js : List Inside} : SlotKept names s s' → Follows names is js →
      Follows names (.slot s :: is) (.slot s' :: js)
  | define {d d' : Definition} {body body' : Option Text} {is js : List Inside} :
      DefinitionKept names d body d' body' → Follows names is js →
      Follows names (.define d body :: is) (.define d' body' :: js)

theorem SlotKept.isReplaced {names : List Text} {s s' : Slot} (h : SlotKept names s s') :
    s'.isReplaced names = false := by
  have hstays := h.stays
  unfold Slot.isReplaced at hstays ⊢
  rw [h.expr, h.name]
  simpa only [h.args] using hstays

theorem DefinitionKept.visible {names : List Text} {d d' : Definition} {body body' : Option Text}
    (h : DefinitionKept names d body d' body') : d'.visible names = d.visible names := by
  unfold Definition.visible Definition.hasParam
  rw [h.required, h.optional]

theorem Follows.of_mem {names : List Text} {is js : List Inside} (h : Follows names is js) :
    (∀ s, .slot s ∈ js → s.isReplaced names = false ∧
      ∀ a ∈ s.args, ∀ u, a.value = .text u → ¬Exposes names u) ∧
    ∀ d b, .define d (some b) ∈ js → d.raw = false → ¬Exposes (d.visible names) b := by
  induction h with
  | nil => exact ⟨by simp, by simp⟩
  | replaced _ _ ih => exact ih
  | @slot s s' is js hs _ ih =>
      refine ⟨fun k hk => ?_, fun d b hd => ih.2 d b (by simpa using hd)⟩
      rcases List.mem_cons.1 hk with heq | hk
      · obtain rfl := Inside.slot.inj heq
        exact ⟨hs.isReplaced, hs.hides⟩
      · exact ih.1 k hk
  | @define d d' body body' is js hd _ ih =>
      refine ⟨fun k hk => ih.1 k (by simpa using hk), fun e b he hraw => ?_⟩
      rcases List.mem_cons.1 he with heq | he
      · obtain ⟨rfl, hbody⟩ := Inside.define.inj heq
        rw [hd.visible]
        exact hd.hides (by rw [← hd.raw]; exact hraw) b hbody.symm
      · exact ih.2 e b he hraw

theorem Follows.not_exposes {names : List Text} {is : List Inside} {t : Text} {ns : List Node}
    (h : Follows names is (insides ns)) (ht : parse t = .ok ns) : ¬Exposes names t := by
  obtain ⟨hslots, hdefinitions⟩ := h.of_mem
  intro hexposes
  cases hexposes with
  | slot hns hs hreplaced =>
      obtain rfl := Except.ok.inj (ht.symm.trans hns)
      rw [(hslots _ hs).1] at hreplaced
      cases hreplaced
  | argument hns hs ha hu hexposes =>
      obtain rfl := Except.ok.inj (ht.symm.trans hns)
      exact (hslots _ hs).2 _ ha _ hu hexposes
  | body hns hd hraw hexposes =>
      obtain rfl := Except.ok.inj (ht.symm.trans hns)
      exact hdefinitions _ _ hd hraw hexposes

structure IsImage (names : List Text) (t u : Text) : Prop where
  reads : ∃ ms ns, parse t = .ok ms ∧ Reads [] u ns ∧ Follows names (insides ms) (insides ns)
  last : u.getLast? = some '{' → t.getLast? = some '{'

theorem IsImage.not_exposes {names : List Text} {t u : Text} (h : IsImage names t u) :
    ¬Exposes names u := by
  obtain ⟨ms, ns, -, hns, hfollows⟩ := h.reads
  exact hfollows.not_exposes (parse_of_reads hns)

theorem not_exposes_nil {names : List Text} {t : Text} (h : Exposes names t) : names ≠ [] := by
  induction h with
  | slot _ _ hreplaced =>
      rintro rfl
      rw [isReplaced_nil] at hreplaced
      cases hreplaced
  | argument _ _ _ _ _ ih => exact ih
  | body _ _ _ _ ih =>
      rintro rfl
      exact ih rfl

theorem follows_nil : ∀ is : List Inside, Follows [] is is := by
  intro is
  induction is with
  | nil => exact .nil
  | cons i is ih =>
      cases i with
      | slot s =>
          refine .slot ⟨isReplaced_nil s, rfl, rfl, rfl, Iff.rfl, fun a _ u _ h => ?_⟩ ih
          exact not_exposes_nil h rfl
      | define d body =>
          refine .define ⟨rfl, rfl, rfl, rfl, fun _ => ⟨rfl, rfl⟩, fun _ b _ h => ?_⟩ ih
          exact not_exposes_nil h rfl

end Stencil
