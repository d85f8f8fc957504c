import Stencil.Proofs.Substitution.Readable

/-! # Depth enough

A substitution looks into parts of the content only, which are shorter than it. So the depth does not matter
where it is larger than the length (`toDepth_congr`), and the parts are treated as the whole is
(`patchesAll_toDepth`). -/
set_option autoImplicit false
namespace Stencil
namespace Substitution

variable {inner inner' : Inner} {bound : Bindings}

theorem arguments_congr {as : List Argument} : ∀ {v : Vault}, (∀ a ∈ as, ∀ u v, a.value = .text u →
    showsSlot u = true → inner u bound v = inner' u bound v) →
    arguments inner bound as v = arguments inner' bound as v := by
  induction as with
  | nil => intro v _; rfl
  | cons a as ih =>
      intro v h
      obtain ⟨ha, has⟩ := List.forall_mem_cons.1 h
      have hrest : ∀ v, arguments inner bound as v = arguments inner' bound as v := fun v => ih has
      obtain ⟨name, value⟩ := a
      cases value with
      | number x => simp only [arguments, hrest]
      | text t =>
          simp only [arguments, hrest]
          by_cases hshows : (Text.before? ['{', '{'] t).isSome = true
          · rw [if_pos hshows, if_pos hshows, ha t v rfl hshows]
          · rw [if_neg hshows, if_neg hshows]

/-- What becomes of a node depends on its parts only. -/
theorem patches_congr {ns : List Node} (h : ∀ bound' u v,
    ContentPart (bound.map Prod.fst) ns (bound'.map Prod.fst) u → inner u bound' v = inner' u bound' v)
    {n : Node} (hn : n ∈ ns) (v : Vault) : patches inner bound n v = patches inner' bound n v := by
  cases n with
  | text source => rfl
  | slot s source =>
      have hslot : slot? inner bound s v = slot? inner' bound s v := by
        unfold slot?
        cases hexpr : s.expr with
        | some e => rfl
        | none =>
            have hargs : arguments inner bound s.args v = arguments inner' bound s.args v :=
              arguments_congr fun a ha u v hu hshows => h bound u v (.argument hn hexpr ha hu hshows)
            simp only [hargs]
      simp only [patches, hslot]
  | define d source =>
      simp only [patches]
      cases hbody : source.body with
      | none => rfl
      | some body =>
          by_cases hraw : d.raw = true
          · simp only [if_pos hraw]
          · have hpart : ContentPart (bound.map Prod.fst) ns
                ((bound.filter fun p => !d.hasParam p.1).map Prod.fst) body := by
              rw [← visible_map_fst]
              exact .body hn (by simpa using hraw) hbody
            simp only [if_neg hraw, h _ body v hpart]

theorem patchesAll_congr {ns : List Node} (h : ∀ bound' u v,
    ContentPart (bound.map Prod.fst) ns (bound'.map Prod.fst) u → inner u bound' v = inner' u bound' v)
    (v : Vault) : patchesAll inner bound ns v = patchesAll inner' bound ns v := by
  have hrow : ∀ (ms : List Node), (∀ n ∈ ms, n ∈ ns) → ∀ v : Vault,
      patchesAll inner bound ms v = patchesAll inner' bound ms v := by
    intro ms
    induction ms with
    | nil => intro _ v; rfl
    | cons n ms ih =>
        intro hsub v
        obtain ⟨hn, hms⟩ := List.forall_mem_cons.1 hsub
        simp only [patchesAll, patches_congr h hn, ih hms]
  exact hrow ns (fun _ hn => hn) v

theorem toDepth_congr : ∀ {depth depth' : Nat} {t : Text} {bound : Bindings} {v : Vault},
    t.length < depth → t.length < depth' → toDepth depth t bound v = toDepth depth' t bound v := by
  intro depth
  induction depth with
  | zero => intro depth' t bound v h; cases h
  | succ depth ih =>
      intro depth' t bound v h h'
      cases depth' with
      | zero => cases h'
      | succ depth' =>
          rw [toDepth_succ, toDepth_succ]
          cases hns : parse t with
          | error e => rfl
          | ok ns =>
              have hparts : nodes (toDepth depth) bound ns v = nodes (toDepth depth') bound ns v := by
                rw [nodes_eq, nodes_eq]
                refine congrArg _ (patchesAll_congr (fun bound' u v hpart => ?_) v)
                have hlt := hpart.length_lt hns
                exact ih (by omega) (by omega)
              show (if bound = [] then _ else nodes (toDepth depth) bound ns v) =
                if bound = [] then _ else nodes (toDepth depth') bound ns v
              rw [hparts]

theorem patchesAll_toDepth {t : Text} {ns : List Node} (h : parse t = .ok ns) (v : Vault) :
    patchesAll (toDepth t.length) bound ns v = patchesAll substitute bound ns v :=
  patchesAll_congr (fun _ _ _ hpart => toDepth_congr (hpart.length_lt h) (Nat.lt_succ_self _)) v

end Substitution
end Stencil
