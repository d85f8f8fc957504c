import Stencil.Proofs.Code.Restoration
import Stencil.Proofs.Substitution.Binding
import Stencil.Proofs.Substitution.Follows
import Stencil.Proofs.Substitution.Steps
import Stencil.Proofs.Tag.Written

/-! # What a slot becomes

In a substitution of values without braces a slot over the bound names becomes a text without braces
(`value_of_slot`), and every other slot one that stays (`slot_becomes`). -/
set_option autoImplicit false
namespace Stencil

open Reader (Writable WritableSlot)

/-! ## Bindings -/

theorem visible_map_fst (d : Definition) (bound : Bindings) :
    d.visible (bound.map Prod.fst) = (bound.filter fun p => !d.hasParam p.1).map Prod.fst := by
  rw [Definition.visible, List.filter_map]
  rfl

/-! ## Slots -/

section Slots
variable {inner : Substitution.Inner} {bound : Bindings} {names : List Text}

def Clears (inner : Substitution.Inner) (bound : Bindings) (names : List Text) (t : Text) : Prop :=
  ∀ {v w : Vault} {u : Text}, inner t bound v = .ok (u, w) → ¬Exposes names u

theorem follows_arguments : ∀ {as bs : List Argument} {v w : Vault},
    (∀ a ∈ as, ∀ t, a.value = .text t → showsSlot t = true → Clears inner bound names t) →
    Substitution.arguments inner bound as v = .ok (bs, w) →
    (bs = [] ↔ as = []) ∧
      (∀ b ∈ bs, ∃ a ∈ as, b.name = a.name ∧ (∀ x, b.value = .number x → a.value = .number x) ∧
        ∀ u, b.value = .text u → ¬Exposes names u) ∧
      ((∀ a ∈ as, ∀ t, a.value = .text t → showsSlot t = false) → bs = as) := by
  intro as
  induction as with
  | nil =>
      intro bs v w _ h
      obtain ⟨rfl, -⟩ := Prod.mk.inj (Except.ok.inj h)
      exact ⟨Iff.rfl, by simp, fun _ => rfl⟩
  | cons a as ih =>
      intro bs v w hclears h
      obtain ⟨x, v₁, others, hstep, hothers, rfl⟩ := Substitution.exists_of_arguments_cons h
      obtain ⟨-, hmem, hsame⟩ :=
        ih (fun b hb => hclears b (List.mem_cons_of_mem _ hb)) hothers
      refine ⟨by simp, fun b hb => ?_, fun hno => ?_⟩
      · rcases List.mem_cons.1 hb with rfl | hb
        · refine ⟨a, List.mem_cons_self .., rfl, ?_⟩
          generalize hvalue : a.value = y at hstep
          cases hstep with
          | same hno =>
              refine ⟨fun z hz => hz, fun u hu hexposes => ?_⟩
              have hshows := hexposes.showsSlot
              rw [showsSlot, hno u hu] at hshows
              cases hshows
          | text hshows hu =>
              refine ⟨by simp, fun u' hu' => ?_⟩
              obtain rfl := Value.text.inj hu'
              exact hclears a (List.mem_cons_self ..) _ hvalue hshows hu
        · obtain ⟨c, hc, hfacts⟩ := hmem b hb
          exact ⟨c, List.mem_cons_of_mem _ hc, hfacts⟩
      · rw [hsame fun b hb => hno b (List.mem_cons_of_mem _ hb)]
        generalize hvalue : a.value = y at hstep
        cases hstep with
        | same _ => rw [← hvalue]
        | text hshows _ =>
            have hnone := hno a (List.mem_cons_self ..) _ hvalue
            rw [showsSlot, hshows] at hnone
            cases hnone

/-- A slot with arguments stays, as it is or written anew. -/
theorem exists_of_slot_arguments {s : Slot} {z x : Text} {v w : Vault} (hz : SlotText z s)
    (hexpr : s.expr = none) (hne : s.args ≠ [])
    (hclears : ∀ a ∈ s.args, ∀ t, a.value = .text t → showsSlot t = true →
      Clears inner bound names t)
    (hwritable : ∀ a ∈ s.args, ∀ t, a.value = .text t → showsSlot t = true →
      ∀ b ∈ s.args, Writable b.value)
    (h : Substitution.slot inner bound s z v = .ok (x, w)) :
    ∃ s', SlotText x s' ∧ SlotKept names s s' := by
  have hstays : s.isReplaced names = false := by simp [Slot.isReplaced, hexpr, hne]
  rw [Substitution.slot, hexpr] at h
  simp only [if_neg hne] at h
  obtain ⟨⟨bs, v₁⟩, hbs, h⟩ := Substitution.exists_of_bind h
  obtain ⟨rfl, rfl⟩ := Prod.mk.inj (Except.ok.inj h)
  obtain ⟨hnil, hmem, hsame⟩ := follows_arguments hclears hbs
  by_cases heq : bs = s.args
  · simp only [if_pos heq]
    refine ⟨s, hz, hstays, rfl, rfl, rfl, Iff.rfl, fun a ha u hu => ?_⟩
    obtain ⟨-, -, -, -, hhides⟩ := hmem a (by rw [heq]; exact ha)
    exact hhides u hu
  · simp only [if_neg heq]
    have hall : ∀ b ∈ s.args, Writable b.value := by
      apply Classical.byContradiction
      intro hnot
      refine heq (hsame fun a ha t ht => ?_)
      rw [← Bool.not_eq_true]
      exact fun hshows => hnot (hwritable a ha t ht hshows)
    have hslot : WritableSlot { s with args := bs } := by
      refine ⟨hexpr, hz.isName hexpr, fun hb => hne (hnil.1 hb), fun b hb => ?_⟩
      obtain ⟨a, ha, hname, hnumber, -⟩ := hmem b hb
      refine ⟨by rw [hname]; exact hz.isName_argument ha, ?_⟩
      cases hvalue : b.value with
      | text t => trivial
      | number y =>
          have hfinite := hall a ha
          rwa [hnumber y hvalue] at hfinite
    obtain ⟨ks, hks, hksne, htexts⟩ := exists_slotText_source hslot
    have hargs : ks = [] ↔ s.args = [] := ⟨fun hk => absurd hk hksne, fun ha => absurd ha hne⟩
    refine ⟨{ name := s.name, args := ks, raw := s.raw, expr := none }, ?_, hstays, rfl, rfl,
      hexpr.symm, hargs, fun k hk u hu => ?_⟩
    · simpa only [hexpr] using hks
    have hfound : some u ∈ bs.map fun b => b.value.asText? := by
      rw [← htexts]
      exact List.mem_map.2 ⟨k, hk, by rw [hu]; rfl⟩
    obtain ⟨b, hb, hbu⟩ := List.mem_map.1 hfound
    obtain ⟨-, -, -, -, hhides⟩ := hmem b hb
    refine hhides u ?_
    cases hvalue : b.value with
    | text t => rw [hvalue] at hbu; rw [Option.some.inj hbu]
    | number y => rw [hvalue] at hbu; cases hbu

/-- A slot without arguments and an expression become values or stay. -/
theorem value_of_slot {s : Slot} {z x : Text} {v w : Vault} (hbound : bound ≠ [])
    (hvalues : ∀ p ∈ bound, '{' ∉ p.2.display)
    (hplain : s.expr = none → s.args = [])
    (h : Substitution.slot inner bound s z v = .ok (x, w)) :
    if s.isReplaced (bound.map Prod.fst) then '{' ∉ x else x = z := by
  have hnames : bound.map Prod.fst ≠ [] := by simpa using hbound
  cases hexpr : s.expr with
  | some e =>
      rw [Substitution.slot, hexpr] at h
      have hiff : s.isReplaced (bound.map Prod.fst) =
          e.names.all fun n => (bound.lookup n).isSome := by
        simp only [Slot.isReplaced, hexpr, hnames, ne_eq, not_false_eq_true, decide_true,
          Bool.true_and]
        refine congrArg (e.names.all ·) (funext fun n => ?_)
        rw [Bool.eq_iff_iff, isSome_lookup_iff, List.contains_iff_mem]
      rw [hiff]
      by_cases hall : (e.names.all fun n => (bound.lookup n).isSome) = true
      · simp only [if_pos hall] at h ⊢
        split at h
        · obtain ⟨rfl, -⟩ := Prod.mk.inj (Except.ok.inj h)
          exact not_mem_formatNumber _ ⟨by decide, by decide, by decide⟩
        · cases h
      · simp only [if_neg hall] at h ⊢
        exact (Prod.mk.inj (Except.ok.inj h)).1.symm
  | none =>
      have hargs := hplain hexpr
      rw [Substitution.slot, hexpr] at h
      simp only [if_pos hargs] at h
      cases hlookup : bound.lookup s.name with
      | some y =>
          rw [hlookup] at h
          have hmem : (bound.map Prod.fst).contains s.name = true := by
            rw [List.contains_iff_mem, ← isSome_lookup_iff, hlookup]
            rfl
          have hreplaced : s.isReplaced (bound.map Prod.fst) = true := by
            simp only [Slot.isReplaced, hexpr, hargs, hmem, hnames, ne_eq, not_false_eq_true,
              decide_true, Bool.and_self]
          rw [if_pos hreplaced]
          obtain ⟨rfl, -⟩ := Prod.mk.inj (Except.ok.inj h)
          cases s.raw with
          | true => exact Vault.brace_not_mem_placeholder _
          | false => exact hvalues _ (Substitution.mem_of_lookup hlookup)
      | none =>
          rw [hlookup] at h
          have hmem : (bound.map Prod.fst).contains s.name = false := by
            rw [Bool.eq_false_iff, ne_eq, List.contains_iff_mem, ← isSome_lookup_iff, hlookup]
            simp
          have hstays : s.isReplaced (bound.map Prod.fst) = false := by
            simp only [Slot.isReplaced, hexpr, hmem, Bool.and_false]
          rw [if_neg (by simp [hstays])]
          exact (Prod.mk.inj (Except.ok.inj h)).1.symm

theorem slot_becomes {s : Slot} {z x : Text} {v w : Vault} (hbound : bound ≠ [])
    (hvalues : ∀ p ∈ bound, '{' ∉ p.2.display) (hz : SlotText z s)
    (hclears : ∀ a ∈ s.args, ∀ t, a.value = .text t → showsSlot t = true →
      Clears inner bound (bound.map Prod.fst) t)
    (hwritable : ∀ a ∈ s.args, ∀ t, a.value = .text t → showsSlot t = true →
      ∀ b ∈ s.args, Writable b.value)
    (h : Substitution.slot inner bound s z v = .ok (x, w)) :
    (s.isReplaced (bound.map Prod.fst) = true ∧ '{' ∉ x) ∨
      (s.isReplaced (bound.map Prod.fst) = false ∧
        ∃ s', SlotText x s' ∧ SlotKept (bound.map Prod.fst) s s') := by
  by_cases hcall : s.expr = none ∧ s.args ≠ []
  · obtain ⟨s', hx, hkept⟩ :=
      exists_of_slot_arguments hz hcall.1 hcall.2 hclears hwritable h
    exact .inr ⟨hkept.stays, s', hx, hkept⟩
  · have hargs : s.args = [] := by
      by_cases hexpr : s.expr = none
      · exact Classical.byContradiction fun hne => hcall ⟨hexpr, hne⟩
      · exact hz.args_eq hexpr
    have hvalue := value_of_slot hbound hvalues (fun _ => hargs) h
    by_cases hreplaced : s.isReplaced (bound.map Prod.fst) = true
    · rw [if_pos hreplaced] at hvalue
      exact .inl ⟨hreplaced, hvalue⟩
    · rw [if_neg hreplaced] at hvalue
      have hstays : s.isReplaced (bound.map Prod.fst) = false := by simpa using hreplaced
      refine .inr ⟨hstays, s, by rw [hvalue]; exact hz, hstays, rfl, rfl, rfl, Iff.rfl, ?_⟩
      rw [hargs]
      simp

end Slots

end Stencil
