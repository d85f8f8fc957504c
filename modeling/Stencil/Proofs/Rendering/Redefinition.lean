import Stencil.Proofs.Code.Masking
import Stencil.Proofs.Code.Restoration
import Stencil.Proofs.Rendering.Passes
import Stencil.Proofs.Tag.Defaults

/-! # Definitions that come again

A definition that a pass after the first one meets again is passed over when the table holds the same
one. Definitions are compared as they are stored, with placeholders for their code, and code that is
stored again gets a new placeholder. So a second copy is passed over exactly when it is stored like
the first one (`run_pass_again`): always when it holds no code, never when its code was stored anew. -/
set_option autoImplicit false
namespace Stencil

/-! ## What is stored and what it stands for -/

def Value.restored (v : Vault) : Value → Value
  | .text t => .text (v.restore t)
  | .number x => .number x

theorem Value.restored_eq (v : Vault) : Value.restored v = fun
    | .text t => .text (v.restore t)
    | .number x => .number x := by
  funext value
  cases value <;> rfl

def Definition.restored (v : Vault) (d : Definition) : Definition :=
  { d with
    content := v.restore d.content
    optional := d.optional.map fun p => (p.1, p.2.restored v) }

/-- Neither the content nor a default holds a placeholder. -/
def Definition.Unmarked (d : Definition) : Prop :=
  placeholderOpen ∉ d.content ∧ ∀ p ∈ d.optional, ∀ t, p.2 = .text t → placeholderOpen ∉ t

theorem Definition.Unmarked.restored {d : Definition} (h : d.Unmarked) (v : Vault) :
    d.restored v = d := by
  obtain ⟨name, required, optional, content, raw⟩ := d
  obtain ⟨hcontent, hoptional⟩ := h
  have hmap : optional.map (fun p => (p.1, p.2.restored v)) = optional := by
    conv => rhs; rw [← List.map_id optional]
    apply List.map_congr_left
    intro p hp
    obtain ⟨n, value⟩ := p
    cases value with
    | number x => rfl
    | text t =>
        have ht : placeholderOpen ∉ t := hoptional (n, .text t) hp t rfl
        simp [Value.restored, v.restore_of_not_mem ht]
  simp only [Definition.restored, hmap, v.restore_of_not_mem hcontent]

/-- Definitions that stand for the same and hold no placeholders are stored alike. -/
theorem Definition.beq_of_restored {d s : Definition} {v : Vault} (hd : d.Unmarked)
    (hs : s.Unmarked) (h : (s.restored v == d.restored v) = true) : (s == d) = true := by
  rwa [hd.restored, hs.restored] at h

theorem Definition.content_eq_of_beq {d s : Definition} (h : (s == d) = true) :
    s.content = d.content := by
  have hfields : (s.name == d.name && (s.required == d.required && (s.optional == d.optional &&
      (s.content == d.content && s.raw == d.raw)))) = true := h
  simp only [Bool.and_eq_true, beq_iff_eq] at hfields
  exact hfields.2.2.2.1

/-! ## Code that is stored twice -/

namespace Vault

theorem placeholder_append_inj {m n : Nat} {s t : Text}
    (h : placeholder m ++ s = placeholder n ++ t) : m = n := by
  simp only [placeholder, List.cons_append, List.append_assoc, List.nil_append, List.cons.injEq,
    true_and] at h
  have htaken := congrArg (List.takeWhile Char.isDigit) h
  rw [takeWhile_isDigit_ofNat, takeWhile_isDigit_ofNat] at htaken
  rw [← Text.digitsValue_ofNat m, htaken, Text.digitsValue_ofNat]

/-- The same code stored at different places leaves different texts. -/
theorem all_isProse_of_maskPieces_eq : ∀ {ps : List Code.Piece} {u v : Vault},
    (u.maskPieces ps).1 = (v.maskPieces ps).1 → u.segments.length ≠ v.segments.length →
    ps.all Code.Piece.isProse = true := by
  intro ps
  induction ps with
  | nil => intro u v _ _; rfl
  | cons piece ps ih =>
      intro u v h hplaces
      cases piece with
      | prose s => exact ih (List.append_cancel_left h) hplaces
      | code s => exact absurd (placeholder_append_inj h) hplaces

end Vault

/-! ## Passes over definitions -/

namespace Rendering

/-- A pass that meets a name of the table again goes on if the definition is stored like the entry, and
fails otherwise. -/
theorem run_pass_of_some {engine : Engine} {t : Text} {as bs : List Node} {d s : Definition}
    {source : DefinitionSource} {w w' : Work}
    (ht : parse t = .ok (as ++ .define d source :: bs))
    (has : (defineAll engine false as).run.run w = (.ok (), w'))
    (hs : w'.context.definitions.get? d.name = some s) :
    (pass engine false t).run.run w =
      if s == d then
        (defineAll engine false bs >>= fun _ =>
          replaceAll engine (as ++ .define d source :: bs)).run.run w'
      else (.error (.nameConflict d.name), w') := by
  have hname : w'.context.definitions.contains d.name = true := by rw [NameMap.contains, hs]; rfl
  rw [pass_of_parse ht, run_bind, run_defineAll_append, run_bind_ok _ has, run_defineAll_define, hs]
  by_cases hsame : (s == d) = true
  · rw [if_pos (by simpa using hsame), if_pos hsame, run_bind]
  · rw [if_neg (by simpa using hsame), if_neg hsame, if_pos hname]

/-- A definition that comes again after the first pass, and stands for the same as the entry of the
table, makes the pass fail exactly when it is stored differently. Without placeholders it is not, and
with code that was stored at another place it is. A second copy of nodes enters nothing new. -/
theorem run_pass_again (engine : Engine) (t : Text) (w : Work) :
    (∀ (as bs : List Node) (d s : Definition) (source : DefinitionSource) (w' : Work),
      parse t = .ok (as ++ .define d source :: bs) →
      (defineAll engine false as).run.run w = (.ok (), w') →
      w'.context.definitions.get? d.name = some s →
      (s.restored w.vault == d.restored w.vault) = true →
        ((pass engine false t).run.run w =
          if s == d then
            (defineAll engine false bs >>= fun _ =>
              replaceAll engine (as ++ .define d source :: bs)).run.run w'
          else (.error (.nameConflict d.name), w')) ∧
        (s.Unmarked → d.Unmarked → (s == d) = true) ∧
        ∀ (ps : List Code.Piece) (u v : Vault), s.content = (u.maskPieces ps).1 →
          d.content = (v.maskPieces ps).1 → u.segments.length ≠ v.segments.length →
          (s == d) = true → ps.all Code.Piece.isProse = true) ∧
    ∀ as ns bs cs : List Node, parse t = .ok (as ++ ns ++ bs ++ ns ++ cs) →
      (defineAll engine false (as ++ ns ++ bs ++ ns ++ cs)).run.run w =
        (defineAll engine false (as ++ ns ++ bs ++ cs)).run.run w := by
  refine ⟨fun as bs d s source w' ht has hs hrestored => ⟨?_, ?_, ?_⟩, ?_⟩
  · exact run_pass_of_some ht has hs
  · intro hsu hdu
    exact Definition.beq_of_restored hdu hsu hrestored
  · intro ps u v hsc hdc hplaces hsame
    have hcontent := Definition.content_eq_of_beq hsame
    rw [hsc, hdc] at hcontent
    exact Vault.all_isProse_of_maskPieces_eq hcontent hplaces
  · intro as ns bs cs ht
    apply run_defineAll_again
    intro d hd
    obtain ⟨source, hmem⟩ := exists_mem_of_mem_definitions hd
    have hall : .define d source ∈ as ++ ns ++ bs ++ ns ++ cs := by simp [hmem]
    exact beq_self_of_mem_parse ht hall

def codeDefinition (index : Nat) : Definition :=
  { name := ['d'], content := Vault.placeholder index }

def codeSource (index : Nat) : DefinitionSource :=
  ⟨"{d}".toList, some (Vault.placeholder index), "{/d}".toList⟩

/-- The same code is stored twice, and the table has the definition with the first placeholder. -/
def codeTwice : Work where
  context := { definitions := ⟨[(['d'], codeDefinition 0)]⟩ }
  vault := ⟨["`x`".toList, "`x`".toList]⟩

/-- The second placeholder makes the pass fail, the first one does not. -/
theorem run_pass_codeTwice :
    ((codeDefinition 0).restored codeTwice.vault ==
      (codeDefinition 1).restored codeTwice.vault) = true ∧
    (pass {} false (codeSource 1).text).run.run codeTwice =
      (.error (.nameConflict ['d']), codeTwice) ∧
    (pass {} false (codeSource 0).text).run.run codeTwice =
      (replaceAll {} [.define (codeDefinition 0) (codeSource 0)]).run.run codeTwice := by
  have hsame : ((codeDefinition 0).restored codeTwice.vault ==
      (codeDefinition 1).restored codeTwice.vault) = true := by decide +kernel
  have hparse : ∀ i < 2, parse (codeSource i).text =
      .ok ([] ++ .define (codeDefinition i) (codeSource i) :: []) := by decide +kernel
  have hother := (run_pass_again {} (codeSource 1).text codeTwice).1 [] [] (codeDefinition 1)
    (codeDefinition 0) (codeSource 1) codeTwice (hparse 1 (by decide)) rfl rfl hsame
  have hown := (run_pass_again {} (codeSource 0).text codeTwice).1 [] [] (codeDefinition 0)
    (codeDefinition 0) (codeSource 0) codeTwice (hparse 0 (by decide)) rfl rfl
    (by decide +kernel)
  refine ⟨hsame, ?_, ?_⟩
  · rw [hother.1, if_neg (by decide +kernel)]
    rfl
  · rw [hown.1, if_pos (by decide +kernel)]
    rfl

end Rendering

/-! ## A function that gives a definition with code -/

def Function.constantly (t : Text) : Function :=
  { name := ['f'], params := [], run := fun _ context => (.ok t, context) }

def Engine.ofCode : Engine := { functions := ⟨[(['f'], Function.constantly "{d}`x`{/d}".toList)]⟩ }

/-- The content is masked once for each copy, under another placeholder. -/
theorem renderText_ofCode_twice :
    (Engine.ofCode.renderText "{{f()}}".toList).1 = .ok [] ∧
      (Engine.ofCode.renderText "{{f()}}{{f()}}".toList).1 = .error (.nameConflict ['d']) := by
  decide +kernel

end Stencil
