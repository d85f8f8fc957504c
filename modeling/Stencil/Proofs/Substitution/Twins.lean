import Stencil.Proofs.Code.Twins
import Stencil.Proofs.Substitution.Steps
import Stencil.Proofs.Tag.Standing

/-! # Substitution in twin vaults

A substitution takes the same way in two vaults that differ in one text: it fails with the same error in
both, or it gives the same text, which stands for something if content and values do
(`agrees_expand`). -/
set_option autoImplicit false
namespace Stencil.Substitution

open Vault (Twin)

variable {strict : Prop} {a b : Text} {v w : Vault}

/-! ## Two runs -/

/-- Two runs in twin vaults, of which `v` is the first one. Both fail with the same error, or both give
the same result and leave twin vaults, with more segments, and in the first one `P` holds of the result. -/
inductive Agrees {α : Type} (a b : Text) (v : Vault) (P : α → Vault → Prop) :
    Except Error (α × Vault) → Except Error (α × Vault) → Prop
  | error (e : Error) : Agrees a b v P (.error e) (.error e)
  | ok {x : α} {v' w' : Vault} : v.segments <+: v'.segments → Twin a b v' w' → P x v' →
      Agrees a b v P (.ok (x, v')) (.ok (x, w'))

namespace Agrees

variable {α β : Type} {P : α → Vault → Prop} {Q : β → Vault → Prop}
  {p q : Except Error (α × Vault)}

theorem now {x : α} (h : Twin a b v w) (hx : P x v) : Agrees a b v P (.ok (x, v)) (.ok (x, w)) :=
  .ok (List.prefix_refl _) h hx

/-- The same step after two runs that agree. -/
theorem bind {f : α × Vault → Except Error (β × Vault)} (h : Agrees a b v P p q)
    (hf : ∀ {x v' w'}, v.segments <+: v'.segments → Twin a b v' w' → P x v' →
      Agrees a b v' Q (f (x, v')) (f (x, w'))) : Agrees a b v Q (p >>= f) (q >>= f) := by
  cases h with
  | error e => exact .error e
  | @ok x v' w' hgrow hw hx =>
      have hrun := hf hgrow hw hx
      show Agrees a b v Q (f (x, v')) (f (x, w'))
      generalize f (x, v') = p', f (x, w') = q' at hrun
      cases hrun with
      | error e => exact .error e
      | ok hmore hw' hy => exact .ok (hgrow.trans hmore) hw' hy

end Agrees

def Blind (strict : Prop) (a b : Text) (inner : Inner) : Prop :=
  ∀ {t : Text} {bound : Bindings} {v w : Vault}, Twin a b v w → v.Stands strict t →
    (∀ p ∈ bound, p.2.Stands strict v) →
    Agrees a b v (fun u v' => v'.Stands strict u) (inner t bound v) (inner t bound w)

variable {inner : Inner} {bound : Bindings}

/-! ## Slots -/

theorem agrees_arguments (hinner : Blind strict a b inner) : ∀ {as : List Argument} {v w : Vault},
    Twin a b v w → (∀ p ∈ bound, p.2.Stands strict v) → (∀ c ∈ as, c.Stands strict v) →
    Agrees a b v (fun bs v' => ∀ c ∈ bs, c.Stands strict v') (arguments inner bound as v)
      (arguments inner bound as w) := by
  intro as
  induction as with
  | nil => intro v w h _ _; exact .now h (by simp)
  | cons c as ih =>
      intro v w h hbound has
      obtain ⟨hc, has⟩ := List.forall_mem_cons.1 has
      have hrest : ∀ {x : Value} {v₁ w₁ : Vault}, v.segments <+: v₁.segments → Twin a b v₁ w₁ →
          x.Stands strict v₁ → Agrees a b v₁ (fun bs v' => ∀ c ∈ bs, c.Stands strict v')
            (arguments inner bound as v₁ >>= fun p => pure ({ c with value := x } :: p.1, p.2))
            (arguments inner bound as w₁ >>= fun p => pure ({ c with value := x } :: p.1, p.2)) := by
        intro x v₁ w₁ hgrow h₁ hx
        refine (ih h₁ (fun p hp => (hbound p hp).grow hgrow) fun d hd => (has d hd).grow hgrow).bind ?_
        intro bs v' w' hmore h' hbs
        exact .now h' (List.forall_mem_cons.2 ⟨⟨hc.1, hx.grow hmore⟩, hbs⟩)
      obtain ⟨name, value⟩ := c
      cases value with
      | number x => exact hrest (List.prefix_refl _) h nofun
      | text t =>
          rw [arguments, arguments]
          by_cases hshows : (Text.before? ['{', '{'] t).isSome = true
          · simp only [if_pos hshows]
            refine (hinner h (hc.2 t rfl) hbound).bind fun hgrow h₁ hu => ?_
            refine hrest hgrow h₁ fun u hu' => ?_
            obtain rfl := Value.text.inj hu'
            exact hu
          · simp only [if_neg hshows]
            exact hrest (List.prefix_refl _) h hc.2

theorem agrees_slot (hinner : Blind strict a b inner) {s : Slot} {z : Text} (h : Twin a b v w)
    (hbound : ∀ p ∈ bound, p.2.Stands strict v) (hz : SlotText z s) (hs : v.Stands strict z) :
    Agrees a b v (fun u v' => v'.Stands strict u) (slot inner bound s z v) (slot inner bound s z w) := by
  unfold slot
  cases hexpr : s.expr with
  | some e =>
      simp only
      split
      · cases e.eval fun n => bound.lookup n with
        | error f => exact .error _
        | ok x => exact .now h (stands_formatNumber v x)
      · exact .now h hs
  | none =>
      simp only
      by_cases hargs : s.args = []
      · rw [if_pos hargs, if_pos hargs]
        cases hlookup : bound.lookup s.name with
        | none => exact .now h hs
        | some x =>
            have hx : v.Stands strict x.display := (hbound _ (mem_of_lookup hlookup)).display
            cases s.raw with
            | false => exact .now h hx
            | true =>
                obtain ⟨hmark, hvault⟩ := h.store (.inl (rfl : x.display = x.display))
                simp only [if_true]
                rw [← Prod.eta (w.protect x.display), hmark]
                exact .ok (v.grow_protect _) hvault hx.protect
      · rw [if_neg hargs, if_neg hargs]
        refine (agrees_arguments hinner h hbound (hz.stands hs)).bind ?_
        intro bs v' w' hgrow h' hbs
        refine .now h' ?_
        split
        · exact hs.grow hgrow
        · exact stands_source (hz.isName hexpr).ordinary hbs

/-! ## Nodes -/

theorem agrees_node (hinner : Blind strict a b inner) {n : Node} (h : Twin a b v w)
    (hbound : ∀ p ∈ bound, p.2.Stands strict v) (hn : n.Stands strict v) :
    Agrees a b v (fun u v' => v'.Stands strict u) (node inner bound n v) (node inner bound n w) := by
  cases n with
  | text t => exact .now h hn
  | slot s z => exact agrees_slot hinner h hbound hn.1 hn.2
  | define d source =>
      obtain ⟨hopening, hbody, hclosing, -⟩ := hn
      have htext : v.Stands strict source.text := by
        refine (hopening.append ?_).append hclosing
        cases hsource : source.body with
        | none => exact .nil v
        | some body => exact hbody body hsource
      cases hsource : source.body with
      | none =>
          simp only [node, hsource]
          exact .now h htext
      | some body =>
          simp only [node, hsource]
          by_cases hraw : d.raw = true
          · rw [if_pos hraw, if_pos hraw]
            exact .now h htext
          · rw [if_neg hraw, if_neg hraw]
            refine (hinner h (hbody body hsource) fun p hp => hbound p (List.mem_filter.1 hp).1).bind ?_
            intro u v' w' hgrow h' hu
            exact .now h' (((hopening.grow hgrow).append hu).append (hclosing.grow hgrow))

theorem agrees_nodes (hinner : Blind strict a b inner) : ∀ {ns : List Node} {v w : Vault}, Twin a b v w →
    (∀ p ∈ bound, p.2.Stands strict v) → (∀ n ∈ ns, n.Stands strict v) →
    Agrees a b v (fun u v' => v'.Stands strict u) (nodes inner bound ns v) (nodes inner bound ns w) := by
  intro ns
  induction ns with
  | nil => intro v w h _ _; exact .now h (.nil v)
  | cons n ns ih =>
      intro v w h hbound hns
      obtain ⟨hn, hns⟩ := List.forall_mem_cons.1 hns
      refine (agrees_node hinner h hbound hn).bind ?_
      intro u v₁ w₁ hgrow h₁ hu
      refine (ih h₁ (fun p hp => (hbound p hp).grow hgrow) fun m hm => (hns m hm).grow hgrow).bind ?_
      intro x v₂ w₂ hmore h₂ hx
      exact .now h₂ ((hu.grow hmore).append hx)

theorem blind_toDepth (strict : Prop) (a b : Text) (depth : Nat) : Blind strict a b (toDepth depth) := by
  induction depth with
  | zero => intro t bound v w h ht _; exact .now h ht
  | succ depth ih =>
      intro t bound v w h ht hbound
      rw [toDepth_succ, toDepth_succ]
      by_cases hnil : bound = []
      · rw [if_pos hnil, if_pos hnil]
        exact .now h ht
      · rw [if_neg hnil, if_neg hnil]
        cases hns : parse t with
        | error e => exact .error e
        | ok ns => exact agrees_nodes ih h hbound ((located_of_parse hns).stands ht)

end Stencil.Substitution

namespace Stencil

/-- Expanding a definition in vaults that differ in one text. -/
theorem Definition.agrees_expand {strict : Prop} {a b : Text} {v w : Vault} {d : Definition}
    {bound : Bindings} (h : Vault.Twin a b v w) (hd : v.Stands strict d.content)
    (hbound : ∀ p ∈ bound, p.2.Stands strict v) :
    Substitution.Agrees a b v (fun u v' => v'.Stands strict u) (d.expand bound v) (d.expand bound w) := by
  unfold expand
  split
  · exact .now h hd
  · exact Substitution.blind_toDepth strict a b _ h hd hbound

end Stencil
