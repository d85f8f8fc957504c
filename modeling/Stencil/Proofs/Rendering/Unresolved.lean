import Stencil.Proofs.Rendering.Literal

/-! # Texts with nothing to resolve

A rendering that finds nothing to do stops after its first pass. Where masking leaves no comment, nothing is
defined and no slot has a value, the text comes back as it was, with its code, its braces and its slots, and so
does the context (`Engine.render_unresolved`). -/
set_option autoImplicit false
namespace Stencil

open Vault (Ordinary)

namespace Engine

open Rendering

/-- The table and the registry have no value for the nodes: there are no definitions, the names of slots are
free, and each expression has a name without a number. -/
structure Unresolved (engine : Engine) (table : SymbolTable) (ns : List Node) : Prop where
  no_define : ∀ d source, .define d source ∉ ns
  free : ∀ s z, .slot s z ∈ ns → s.expr = none →
    table.get? s.name = none ∧ engine.functions.get? s.name = none
  no_number : ∀ s z e, .slot s z ∈ ns → s.expr = some e →
    ∃ n ∈ e.names, (table.get? n).bind Definition.numericValue? = none

theorem Unresolved.leaves {engine : Engine} {table : SymbolTable} {ns : List Node}
    (h : engine.Unresolved table ns) : ∀ n ∈ ns, engine.leaves table n = true := by
  intro n hn
  cases n with
  | text s => rfl
  | define d source => exact absurd hn (h.no_define d source)
  | slot s z =>
      rw [Engine.leaves, Bool.not_eq_true', replaces, SymbolTable.replaces]
      cases hexpr : s.expr with
      | none =>
          obtain ⟨hname, hfunction⟩ := h.free s z hn hexpr
          simp [NameMap.contains, hname, hfunction]
      | some e =>
          obtain ⟨n, hmem, hnone⟩ := h.no_number s z e hn hexpr
          have hsome : (e.names.all fun n => (table.scope n).isSome) = false :=
            List.all_eq_false.2 ⟨n, hmem, by simp [SymbolTable.scope, hnone]⟩
          simp [hsome]

/-- A template in which nothing has a value is rendered as it is, and leaves no trace in the context. -/
theorem render_unresolved (engine : Engine) (c : Context) (t : Text) (ns : List Node)
    (hc : c.options.matchesOnly = false) (ht : Ordinary t)
    (hstrip : Comment.strip (Vault.empty.mask t).1 = (Vault.empty.mask t).1)
    (hns : parse (Vault.empty.mask t).1 = .ok ns) (h : engine.Unresolved c.definitions ns) :
    engine.render t c = (.ok (.text t), c) := by
  have hprepare : prepare t = ((Vault.empty.mask t).1, (Vault.empty.mask t).2) := by
    rw [prepare, hstrip]
  have hpass : (pass engine true (Vault.empty.mask t).1).run.run ⟨c, (Vault.empty.mask t).2⟩ =
      (.ok ((Vault.empty.mask t).1, false), ⟨c, (Vault.empty.mask t).2⟩) :=
    run_pass_of_leaves hns h.leaves
  have hrestore : (Vault.empty.mask t).2.restore (Vault.empty.mask t).1 = t := by
    have hopen : placeholderOpen ∉ t := fun hmem => (ht _ hmem).1 rfl
    exact Vault.restore_of_restores (Vault.restores_mask (.of_not_mem hopen)) (Nat.le_refl _)
  have hpasses : (passes engine maxPasses true (prepare t).1).run.run ⟨c, (prepare t).2⟩ =
      (.ok (Vault.empty.mask t).1, ⟨c, (Vault.empty.mask t).2⟩) := by
    rw [hprepare, maxPasses, passes_first, run_bind_ok _ hpass]
    rfl
  rw [render_run engine t hc, hpasses]
  exact congrArg (fun x => (Except.ok (Output.text x), c)) hrestore

def clockEngine : Engine :=
  { functions := { entries := [("now".toList, { name := "now".toList, params := [], run := fun _ c =>
      (.ok "noon".toList, { c with attachments := [.url "clock".toList] }) })] } }

def adaContext : Context :=
  { definitions := { entries := [("who".toList, { name := "who".toList, content := "Ada".toList })] } }

def looseText : Text := bracketed "`[[now]]` [[[a]]] [[@f(\"[[now]]\", x = 1)]] [[who * 2]] [;]"

def looseNodes : List Node :=
  [.text (Vault.placeholder 0 ++ bracketed " ["), .slot ⟨['a'], [], false, none⟩ (bracketed "[[a]]"),
    .text (bracketed "] "),
    .slot ⟨['f'], [⟨none, .text (bracketed "[[now]]")⟩,
      ⟨some ['x'], .number (Decimal.ofNumeral false ['1'] [])⟩], true, none⟩
      (bracketed "[[@f(\"[[now]]\", x = 1)]]"),
    .text [' '],
    .slot ⟨"who * 2".toList, [], false, some (.binary .mul (.name "who".toList)
      (.number (Decimal.ofNumeral false ['2'] [])))⟩ (bracketed "[[who * 2]]"),
    .text (bracketed " [;]")]

theorem render_unresolved_looseText :
    clockEngine.render looseText adaContext = (.ok (.text looseText), adaContext) := by
  refine render_unresolved clockEngine adaContext looseText looseNodes rfl (by decide) (by decide +kernel)
    (by decide +kernel) ⟨by simp [looseNodes], fun s z hs hexpr => ?_, fun s z e hs hexpr => ?_⟩
  · simp only [looseNodes, List.mem_cons, reduceCtorEq, List.not_mem_nil, false_or, or_false,
      Node.slot.injEq] at hs
    rcases hs with ⟨rfl, -⟩ | ⟨rfl, -⟩ | ⟨rfl, -⟩
    · exact ⟨by decide, by decide⟩
    · exact ⟨by decide, by decide⟩
    · cases hexpr
  · simp only [looseNodes, List.mem_cons, reduceCtorEq, List.not_mem_nil, false_or, or_false,
      Node.slot.injEq] at hs
    rcases hs with ⟨rfl, -⟩ | ⟨rfl, -⟩ | ⟨rfl, -⟩
    · cases hexpr
    · cases hexpr
    · obtain rfl := Option.some.inj hexpr
      exact ⟨"who".toList, by decide, by decide +kernel⟩

end Engine
end Stencil
