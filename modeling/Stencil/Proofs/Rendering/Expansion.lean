import Mathlib.Data.List.Basic
import Stencil.Proofs.Code.RoundTrip
import Stencil.Proofs.Rendering.Literal

/-! # Expansion to a depth

Variables whose contents refer to each other, in cycles or not. A pass over a template of plain slots
replaces each slot of a variable by the content, and the text that comes out is read again as just the
parts that were put together (`run_pass_content`). So many passes are the expansion to that depth
(`run_passes_content`): one that changes nothing has no slot of a variable left, and more depth would
change nothing either. -/
set_option autoImplicit false
namespace Stencil

open Reader (IsName)

/-! ## Variables -/

/-- A part of a content. Text may have closing braces and the characters of placeholders in it. -/
inductive Part where
  | text (s : Text) (plain : ∀ c ∈ s, c ≠ '{' ∧ c ≠ '`' ∧ c ≠ '/')
  | slot (name : Text) (isName : IsName name)

def Part.source : Part → Text
  | .text s _ => s
  | .slot name _ => '{' :: '{' :: (name ++ Reader.slotEnd)

abbrev Variables := NameMap (List Part)

namespace Variables

def content (ps : List Part) : Text := ps.flatMap Part.source

theorem plain_content (ps : List Part) : ∀ c ∈ content ps, c ≠ '`' ∧ c ≠ '/' := by
  intro c hc
  obtain ⟨p, -, hc⟩ := List.mem_flatMap.1 hc
  cases p with
  | text s plain => exact (plain c hc).2
  | slot name isName =>
      have hname : isSlotChar c = true := by
        simp only [Part.source, Reader.slotEnd, List.mem_cons, List.mem_append, List.not_mem_nil,
          or_false] at hc
        rcases hc with rfl | rfl | hc | rfl | rfl
        · decide
        · decide
        · exact isSlotChar_of_isNameChar (isName.isNameChar c hc)
        · decide
        · decide
      constructor <;> (rintro rfl; exact absurd hname (by decide))

def table (vars : Variables) : SymbolTable :=
  { entries := vars.entries.map fun (name, ps) => (name, { name, content := content ps }) }

def behind (vars : Variables) : Part → Option (List Part)
  | .text _ _ => none
  | .slot name _ => vars.get? name

/-- The text with every slot of a variable replaced by its content, and so on to the depth. -/
def expand (vars : Variables) : Nat → List Part → Text
  | 0, ps => content ps
  | depth + 1, ps => ps.flatMap fun p =>
    match vars.behind p with
    | some qs => vars.expand depth qs
    | none => p.source

/-- The parts with every slot of a variable replaced by the parts of its content. -/
def replace (vars : Variables) (ps : List Part) : List Part :=
  ps.flatMap fun p => (vars.behind p).getD [p]

/-- Replacing first is expanding one deeper. -/
theorem expand_replace (vars : Variables) (depth : Nat) (ps : List Part) :
    vars.expand depth (vars.replace ps) = vars.expand (depth + 1) ps := by
  cases depth with
  | zero =>
      rw [expand, expand, content, replace, List.flatMap_assoc]
      refine List.flatMap_congr fun p _ => ?_
      cases h : vars.behind p with
      | none => simp
      | some qs => simp [expand, content]
  | succ depth =>
      rw [expand, expand, replace, List.flatMap_assoc]
      refine List.flatMap_congr fun p _ => ?_
      cases h : vars.behind p with
      | none => simp [h]
      | some qs => simp [expand]

theorem expand_of_behind (vars : Variables) {ps : List Part}
    (h : ∀ p ∈ ps, vars.behind p = none) (depth : Nat) : vars.expand depth ps = content ps := by
  cases depth with
  | zero => rfl
  | succ depth =>
      rw [expand, content]
      refine List.flatMap_congr fun p hp => ?_
      rw [h p hp]

theorem get?_table (vars : Variables) (name : Text) :
    vars.table.get? name = (vars.get? name).map fun ps => { name, content := content ps } := by
  obtain ⟨entries⟩ := vars
  show List.lookup name (entries.map _) = (List.lookup name entries).map _
  induction entries with
  | nil => rfl
  | cons entry entries ih =>
      obtain ⟨other, ps⟩ := entry
      rw [List.map_cons, List.lookup_cons, List.lookup_cons, ih]
      by_cases h : name = other
      · subst h
        simp
      · rw [beq_false_of_ne h]

end Variables

/-! ## Contents are read -/

def SymbolTable.outcome (table : SymbolTable) : Node → Outcome
  | .text s => { text := s }
  | .define _ _ => { text := [], changed := true }
  | .slot s z =>
    match table.get? s.name with
    | some d => { text := d.content, changed := true }
    | none => { text := z }

def Node.Simple : Node → Prop
  | .text _ => True
  | .define _ _ => False
  | .slot s _ => s.Plain ∧ s.raw = false

theorem Reads.prepend {r t : Text} {ns : List Node} (h : Reads r t ns) : ∀ {s : Text}, '{' ∉ s →
    Reads r (s ++ t) (s.foldr Node.consText ns) := by
  intro s
  induction s with
  | nil => intro _; exact h
  | cons c s ih =>
      intro hs
      rw [List.mem_cons, not_or] at hs
      exact .text (lead_of_ne (Ne.symm hs.1) _) (ih hs.2)

theorem Node.simple_foldr_consText {ns : List Node} (h : ∀ n ∈ ns, n.Simple) (s : Text) :
    ∀ n ∈ s.foldr Node.consText ns, n.Simple := by
  induction s with
  | nil => exact h
  | cons c s ih =>
      intro n hn
      cases n with
      | text t => trivial
      | define d source => exact ih _ (Node.define_mem_consText.1 hn)
      | slot t z => exact ih (.slot t z) (Node.slot_mem_consText.1 hn)

/-- Text in front of nodes stays and changes nothing. -/
theorem SymbolTable.outcome_foldr_consText (table : SymbolTable) (s : Text) (ns : List Node) :
    (s.foldr Node.consText ns).flatMap (fun n => (table.outcome n).text) =
        s ++ ns.flatMap (fun n => (table.outcome n).text) ∧
      (s.foldr Node.consText ns).any (fun n => (table.outcome n).changed) =
        ns.any (fun n => (table.outcome n).changed) := by
  have hcons : ∀ (c : Char) (ms : List Node),
      (Node.consText c ms).flatMap (fun n => (table.outcome n).text) =
          c :: ms.flatMap (fun n => (table.outcome n).text) ∧
        (Node.consText c ms).any (fun n => (table.outcome n).changed) =
          ms.any (fun n => (table.outcome n).changed) := by
    intro c ms
    cases ms with
    | nil => exact ⟨rfl, rfl⟩
    | cons m ms => cases m <;> exact ⟨rfl, rfl⟩
  induction s with
  | nil => exact ⟨rfl, rfl⟩
  | cons c s ih =>
      rw [List.foldr_cons, (hcons c _).1, (hcons c _).2, ih.1, ih.2]
      exact ⟨rfl, rfl⟩

namespace Variables

/-- The text of parts is read as nodes that become the text of the replaced parts. -/
theorem exists_reads_content (vars : Variables) (ps : List Part) : ∃ ns, Reads [] (content ps) ns ∧
    (∀ n ∈ ns, n.Simple) ∧
    ns.flatMap (fun n => (vars.table.outcome n).text) = content (vars.replace ps) ∧
    ns.any (fun n => (vars.table.outcome n).changed) = ps.any fun p => (vars.behind p).isSome := by
  induction ps with
  | nil => exact ⟨[], .nil, by simp, rfl, rfl⟩
  | cons p ps ih =>
      obtain ⟨ns, hns, hsimple, htext, hchanged⟩ := ih
      cases p with
      | text s plain =>
          obtain ⟨hfront, hsame⟩ := vars.table.outcome_foldr_consText s ns
          refine ⟨s.foldr Node.consText ns, hns.prepend fun h => (plain _ h).1 rfl,
            Node.simple_foldr_consText hsimple s, ?_, ?_⟩
          · rw [hfront, htext]
            rfl
          · rw [hsame, hchanged]
            rfl
      | slot name isName =>
          refine ⟨.slot { name, args := [], raw := false, expr := none } (Part.slot name isName).source
            :: ns, .slot (slotText_name isName false) hns, ?_, ?_, ?_⟩
          · exact List.forall_mem_cons.2 ⟨⟨⟨rfl, rfl⟩, rfl⟩, hsimple⟩
          · rw [List.flatMap_cons, htext, SymbolTable.outcome, get?_table]
            cases h : vars.get? name with
            | none => simp [replace, behind, h, content]
            | some qs => simp [replace, behind, h, content]
          · rw [List.any_cons, List.any_cons, hchanged, SymbolTable.outcome, get?_table, behind]
            cases vars.get? name with
            | none => rfl
            | some qs => rfl

end Variables

/-! ## Passes -/

namespace Rendering

theorem run_defineAll_of_simple {engine : Engine} {first : Bool} {w : Work} : ∀ {ns : List Node},
    (∀ n ∈ ns, n.Simple) → (defineAll engine first ns).run.run w = (.ok (), w) := by
  intro ns
  induction ns with
  | nil => intro _; rfl
  | cons n ns ih =>
      intro h
      have hrest := ih fun m hm => h m (List.mem_cons_of_mem _ hm)
      cases n with
      | text s => exact hrest
      | slot s z => exact hrest
      | define d source => exact (h _ (List.mem_cons_self ..)).elim

theorem run_outcome_of_simple {n : Node} {w : Work} (hn : n.Simple)
    (htable : ∀ name d, w.context.definitions.get? name = some d → d.Plain ∧ d.raw = false) :
    (outcome {} n).run.run w = (.ok (w.context.definitions.outcome n), w) := by
  cases n with
  | text s => rfl
  | define d source => exact hn.elim
  | slot s z =>
      obtain ⟨hplain, hraw⟩ := hn
      rw [SymbolTable.outcome]
      cases hname : w.context.definitions.get? s.name with
      | none =>
          refine run_outcome_of_leaves ((Engine.leaves_empty _ _).trans ?_)
          simp [SymbolTable.leaves, SymbolTable.replaces, hplain.1, NameMap.contains, hname]
      | some d =>
          obtain ⟨hd, hdraw⟩ := htable _ _ hname
          have hrun := run_slot?_plain hplain hd hname
          rw [hraw, hdraw, if_neg (by decide)] at hrun
          exact run_outcome_of_some hrun

theorem run_outcomes_of_simple : ∀ {ns : List Node} {w : Work}, (∀ n ∈ ns, n.Simple) →
    (∀ name d, w.context.definitions.get? name = some d → d.Plain ∧ d.raw = false) →
    (outcomes {} ns).run.run w = (.ok (ns.map w.context.definitions.outcome), w) := by
  intro ns
  induction ns with
  | nil => intro w _ _; rfl
  | cons n ns ih =>
      intro w h htable
      have hrest := ih (fun m hm => h m (List.mem_cons_of_mem _ hm)) htable
      have hfirst := run_outcome_of_simple (h n (List.mem_cons_self ..)) htable
      rw [outcomes, run_bind_ok _ hrest, run_bind_ok _ hfirst]
      rfl

variable {vars : Variables} {w : Work}

/-- A pass replaces the slots of variables, and touches nothing else. -/
theorem run_pass_content (hw : w.context.definitions = vars.table) (first : Bool) (ps : List Part) :
    (pass {} first (Variables.content ps)).run.run w =
      (.ok (Variables.content (vars.replace ps), ps.any fun p => (vars.behind p).isSome), w) := by
  obtain ⟨ns, hns, hsimple, htext, hchanged⟩ := vars.exists_reads_content ps
  have htable : ∀ name d, w.context.definitions.get? name = some d → d.Plain ∧ d.raw = false := by
    intro name d hd
    rw [hw, Variables.get?_table] at hd
    obtain ⟨qs, -, rfl⟩ := Option.map_eq_some_iff.1 hd
    exact ⟨⟨rfl, rfl⟩, rfl⟩
  have hattached : ns.flatMap (fun n => (vars.table.outcome n).attachments) = [] := by
    rw [List.flatMap_eq_nil_iff]
    intro n _
    cases n with
    | text s => rfl
    | define d source => rfl
    | slot s z =>
        rw [SymbolTable.outcome]
        cases vars.table.get? s.name <;> rfl
  rw [pass_of_parse (parse_of_reads hns), run_bind_ok _ (run_defineAll_of_simple hsimple), replaceAll,
    run_bind_ok _ (run_outcomes_of_simple hsimple htable), run_bind_ok _ (run_modify ..), run_pure, hw]
  simp only [List.flatMap_map, List.any_map, Function.comp_def, htext, hchanged, hattached,
    List.append_nil]

/-- So many passes expand to this depth. By induction on their number: the first one leaves a text of
parts again, and one that replaces nothing has nothing left to expand. -/
theorem run_passes_content (hw : w.context.definitions = vars.table) : ∀ (n : Nat) (first : Bool)
    (ps : List Part),
    (passes {} n first (Variables.content ps)).run.run w = (.ok (vars.expand n ps), w) := by
  intro n
  induction n with
  | zero => intro first ps; rfl
  | succ n ih =>
      intro first ps
      have hlater : (if (ps.any fun p => (vars.behind p).isSome) = true then
            passes {} n false (Variables.content (vars.replace ps))
          else return Variables.content (vars.replace ps)).run.run w =
          (.ok (vars.expand (n + 1) ps), w) := by
        by_cases hsome : (ps.any fun p => (vars.behind p).isSome) = true
        · rw [if_pos hsome, ih, vars.expand_replace]
        · have hnone : ∀ p ∈ ps, vars.behind p = none := by
            rw [List.any_eq_true, not_exists] at hsome
            intro p hp
            have hp' := hsome p
            simpa [hp] using hp'
          rw [if_neg hsome, run_pure, vars.expand_of_behind hnone,
            ← vars.expand_of_behind hnone 1, ← vars.expand_replace]
          rfl
      cases first with
      | true =>
          rw [passes_first, run_bind_ok _ (run_pass_content hw true ps)]
          exact hlater
      | false =>
          have hmask : (mask (Variables.content ps)).run.run w = (.ok (Variables.content ps), w) := by
            rw [run_mask, Vault.mask_of_not_mem w.vault fun h => (Variables.plain_content ps _ h).1 rfl]
          rw [passes_later, run_bind_ok _ hmask, run_bind_ok _ (run_pass_content hw false ps)]
          exact hlater

end Rendering

/-- Rendering expands the slots of variables to a depth of five, and leaves the context as it was. -/
theorem Engine.render_content (vars : Variables) (ps : List Part) (c : Context)
    (hoptions : c.options.matchesOnly = false) (htable : c.definitions = vars.table) :
    ({} : Engine).render (Variables.content ps) c = (.ok (.text (vars.expand 5 ps)), c) := by
  have hprepare : Rendering.prepare (Variables.content ps) = (Variables.content ps, .empty) := by
    rw [Rendering.prepare, Vault.mask_of_not_mem _ fun h => (Variables.plain_content ps _ h).1 rfl,
      Comment.strip_of_free (Comment.free_of_not_mem fun h => (Variables.plain_content ps _ h).2 rfl)]
  rw [Engine.render, Rendering.run_whole _ _ hoptions, hprepare,
    Rendering.run_bind_ok _ (Rendering.run_passes_content htable _ _ _)]
  simp only [Rendering.run_bind_ok _ (Rendering.run_get _), Rendering.run_pure, Vault.restore_empty]
  rfl

def roundVariables : Variables :=
  { entries := [
      (['a'], [.text ['('] (by simp), .slot ['b'] ⟨'b', [], rfl, rfl, by simp⟩,
        .text [')'] (by simp)]),
      (['b'], [.slot ['a'] ⟨'a', [], rfl, rfl, by simp⟩, .text ['!'] (by simp)]),
      (['c'], [.text ['x'] (by simp)])] }

/-- The slot that goes round is still there after the last pass, and the one of no variable stays. -/
theorem Engine.render_roundVariables :
    ({} : Engine).render "{{a}}{{c}}{{d}}".toList { definitions := roundVariables.table } =
      (.ok (.text "((({{b}})!)!)x{{d}}".toList), { definitions := roundVariables.table }) :=
  Engine.render_content roundVariables
    [.slot ['a'] ⟨'a', [], rfl, rfl, by simp⟩, .slot ['c'] ⟨'c', [], rfl, rfl, by simp⟩,
      .slot ['d'] ⟨'d', [], rfl, rfl, by simp⟩]
    { definitions := roundVariables.table } rfl rfl

end Stencil
