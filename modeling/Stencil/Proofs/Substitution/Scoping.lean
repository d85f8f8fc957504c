import Stencil.Proofs.Substitution.Binding
import Stencil.Proofs.Substitution.Replacement
import Stencil.Proofs.Substitution.Tidy

/-! # Scoping of parameters

The expansion of tidy content with values without braces exposes none of the bound names
(`Definition.expand_leaves_no_parameter`). The proof goes down the content as `Tidy` does, and along the
nodes of each part. -/
set_option autoImplicit false
namespace Stencil

open Reader (Writable)

section Definitions
variable {inner : Substitution.Inner} {bound : Bindings}

def Ready (inner : Substitution.Inner) (bound : Bindings) : Node → Prop
  | .text _ => True
  | .slot s _ => ∀ a ∈ s.args, ∀ t, a.value = .text t → showsSlot t = true →
      Clears inner bound (bound.map Prod.fst) t ∧ ∀ b ∈ s.args, Writable b.value
  | .define d source => ∀ body, source.body = some body →
      (d.raw = true → Settled d source) ∧
      (d.raw = false → (∃ ns, Reads [] body ns) ∧ ∀ {v w : Vault} {u : Text},
        inner body (bound.filter fun p => !d.hasParam p.1) v = .ok (u, w) →
          IsImage (d.visible (bound.map Prod.fst)) body u ∧
            (d.visible (bound.map Prod.fst) = [] → u = body))

theorem define_becomes {c next : Cursor} {d : Definition} {source : DefinitionSource} {x : Text}
    {v w : Vault} (hlead : lead c.rest = .opening)
    (hdef : Node.definition c = .ok (d, source, next)) (hready : Ready inner bound (.define d source))
    (h : Substitution.node inner bound (.define d source) v = .ok (x, w)) :
    ∃ closing br d' body', source.closing = closing ++ br ∧ IsBreak br ∧
      x = source.opening ++ (body'.getD [] ++ (closing ++ br)) ∧
      DefinitionText source.opening body' closing d' ∧
      DefinitionKept (bound.map Prod.fst) d source.body d' body' := by
  have hstays : ∀ (closing br : Text), source.closing = closing ++ br → IsBreak br →
      DefinitionText source.opening source.body closing d → (d.raw = true ∨ source.body = none) →
      x = source.text → ∃ closing br d' body', source.closing = closing ++ br ∧ IsBreak br ∧
        x = source.opening ++ (body'.getD [] ++ (closing ++ br)) ∧
        DefinitionText source.opening body' closing d' ∧
        DefinitionKept (bound.map Prod.fst) d source.body d' body' := by
    intro closing br hclosing hbr htext hfixed hx
    refine ⟨closing, br, d, source.body, hclosing, hbr, ?_, htext, rfl, rfl, rfl, rfl,
      fun _ => ⟨rfl, rfl⟩, fun hraw b hb => ?_⟩
    · rw [hx, DefinitionSource.text, hclosing, List.append_assoc]
    · rcases hfixed with hfixed | hfixed
      · rw [hraw] at hfixed
        cases hfixed
      · rw [hb] at hfixed
        cases hfixed
  cases hcontent : source.body with
  | none =>
      rw [← hcontent]
      obtain ⟨htext, -, hbreak⟩ := exists_of_definition_single hlead hdef hcontent
      have hbr : IsBreak source.closing := by
        rw [← hbreak]
        exact isBreak_lineBreak _
      simp only [Substitution.node, hcontent] at h
      refine hstays [] source.closing rfl hbr (by rw [hcontent]; exact htext) (.inr hcontent) ?_
      exact (Prod.mk.inj (Except.ok.inj h)).1.symm
  | some body =>
      simp only [Substitution.node, hcontent] at h
      obtain ⟨hsettled, hinner⟩ := hready body hcontent
      by_cases hraw : d.raw = true
      · rw [if_pos hraw] at h
        obtain ⟨closing, br, hclosing, htext⟩ := hsettled hraw
        have hbr : IsBreak br := by
          rw [← lineBreak_of_definition hdef hclosing htext]
          exact isBreak_lineBreak _
        rw [← hcontent]
        exact hstays closing br hclosing hbr htext (.inl hraw) (Prod.mk.inj (Except.ok.inj h)).1.symm
      · rw [if_neg hraw] at h
        have hnot : d.raw = false := by simpa using hraw
        obtain ⟨⟨ms, hms⟩, himages⟩ := hinner hnot
        obtain ⟨⟨body', w'⟩, hbody', h⟩ := Substitution.exists_of_bind h
        obtain ⟨rfl, rfl⟩ := Prod.mk.inj (Except.ok.inj h)
        obtain ⟨himage, hsame⟩ := himages hbody'
        obtain ⟨closing, br, o, ps, offset, ho, hform, hclose, hclosing, hbreak, -, rfl, hscan⟩ :=
          exists_of_definition_block hlead hdef hcontent hnot
        have hlast := getLast?_ne_of_scan (hclose.1 (br ++ next.rest)) hms hscan
        obtain ⟨-, ns, -, hns, -⟩ := himage.reads
        have htext := definitionText_of_reads ho hform hclose hns fun heq => hlast (himage.last heq)
        have hbr : IsBreak br := by
          rw [← hbreak]
          exact isBreak_lineBreak _
        refine ⟨closing, br, _, some body', hclosing, hbr, ?_, htext, rfl, rfl, rfl, rfl, ?_, ?_⟩
        · simp only [DefinitionSource.text, hclosing, Option.getD_some, List.append_assoc]
        · intro hfixed
          rcases hfixed with hfixed | hfixed | hfixed
          · exact absurd hfixed hraw
          · cases hfixed
          · rw [hsame hfixed]
            exact ⟨rfl, rfl⟩
        · intro _ b hb
          obtain rfl := Option.some.inj hb
          exact himage.not_exposes

theorem forall_ready_of_consText {ch : Char} {ns : List Node}
    (h : ∀ n ∈ Node.consText ch ns, Ready inner bound n) : ∀ n ∈ ns, Ready inner bound n := by
  intro n hn
  cases n with
  | text t => trivial
  | slot s z => exact h _ (Node.slot_mem_consText.2 hn)
  | define d source => exact h _ (Node.define_mem_consText.2 hn)

theorem becomes_of_nodes (hbound : bound ≠ []) (hvalues : ∀ p ∈ bound, '{' ∉ p.2.display)
    {c : Cursor} {ns : List Node} (hns : Located c ns) :
    (∀ n ∈ ns, Ready inner bound n) → braceBefore (bound.map Prod.fst) ns = false →
    ∀ {v w : Vault} {u : Text}, Substitution.nodes inner bound ns v = .ok (u, w) →
      ∃ is, Becomes (startsReplaced (bound.map Prod.fst) ns) c.rest u is ∧
        Follows (bound.map Prod.fst) (insides ns) is := by
  induction hns with
  | nil hc =>
      intro _ _ v w u h
      obtain ⟨rfl, -⟩ := Prod.mk.inj (Except.ok.inj h)
      rw [hc]
      exact ⟨[], .nil, .nil⟩
  | @text c ch rest ns hc hlead _ ih =>
      intro hready hbrace v w u h
      obtain ⟨y, hy, rfl⟩ := Substitution.exists_of_nodes_consText h
      rw [braceBefore_consText, Bool.or_eq_false_iff] at hbrace
      obtain ⟨is, hbecomes, hfollows⟩ := ih (forall_ready_of_consText hready) hbrace.2 hy
      have hrest : (c.advance 1).rest = rest := by simp [Cursor.advance, hc]
      rw [hrest] at hbecomes
      rw [hc] at hlead ⊢
      rw [startsReplaced_consText, insides_consText]
      refine ⟨is, .text hlead (fun hch => ?_) hbecomes, hfollows⟩
      simpa [hch] using hbrace.1
  | @slot c next s ns hlead hslot _ ih =>
      intro hready hbrace v w u h
      obtain ⟨x, v₁, y, hx, hy, rfl⟩ := Substitution.exists_of_nodes_cons h
      obtain ⟨is, hbecomes, hfollows⟩ :=
        ih (fun n hn => hready n (List.mem_cons_of_mem _ hn)) hbrace hy
      obtain ⟨htext, hrest⟩ := slotText_of_run hlead hslot
      have hargs := hready _ (List.mem_cons_self ..)
      rw [hrest]
      rcases slot_becomes hbound hvalues htext (fun a ha t ht hs => (hargs a ha t ht hs).1)
        (fun a ha t ht hs => (hargs a ha t ht hs).2) hx with
        ⟨hreplaced, hfree⟩ | ⟨hstays, s', hs', hkept⟩
      · rw [startsReplaced, hreplaced]
        exact ⟨is, .value htext.getLast?_ne hfree hbecomes, .replaced hreplaced hfollows⟩
      · rw [startsReplaced, hstays]
        exact ⟨.slot s' :: is, .slot htext hs' hbecomes, .slot hkept hfollows⟩
  | @define c next d source ns hlead hdef _ ih =>
      intro hready hbrace v w u h
      obtain ⟨x, v₁, y, hx, hy, rfl⟩ := Substitution.exists_of_nodes_cons h
      obtain ⟨is, hbecomes, hfollows⟩ :=
        ih (fun n hn => hready n (List.mem_cons_of_mem _ hn)) hbrace hy
      obtain ⟨closing, br, d', body', hclosing, hbr, rfl, htext, hkept⟩ :=
        define_becomes hlead hdef (hready _ (List.mem_cons_self ..)) hx
      have hrest := (source_of_definition hdef).1
      simp only [DefinitionSource.text, hclosing, List.append_assoc] at hrest
      rw [hrest]
      refine ⟨.define d' body' :: is, ?_, .define hkept hfollows⟩
      rw [startsReplaced]
      simpa only [List.append_assoc] using Becomes.define htext hbr hbecomes

end Definitions

/-! ## The whole content -/

/-- Tidy content becomes its image under every substitution that is deep enough. -/
theorem isImage_of_tidy {names : List Text} {t : Text} (h : Tidy names t) :
    ∀ {bound : Bindings} {depth : Nat} {v w : Vault} {u : Text}, bound.map Prod.fst = names →
      (∀ p ∈ bound, '{' ∉ p.2.display) → t.length < depth →
      Substitution.toDepth depth t bound v = .ok (u, w) → IsImage names t u ∧ (names = [] → u = t) := by
  induction h with
  | @intro names t ns hparse hbrace hwritable _ hsettled hbodies ihargs ihbodies =>
      intro bound depth v w u hnames hvalues hdepth hrun
      subst hnames
      have hlocated := located_of_parse hparse
      by_cases hbound : bound = []
      · subst hbound
        rw [Substitution.toDepth_nil] at hrun
        obtain ⟨rfl, -⟩ := Prod.mk.inj (Except.ok.inj hrun)
        have hreads := reads_of_located hlocated hsettled fun d source body hd hraw hbody =>
          (hbodies d source body hd hraw hbody).exists_reads
        exact ⟨⟨⟨ns, ns, hparse, hreads, follows_nil _⟩, id⟩, fun _ => rfl⟩
      · obtain ⟨k, rfl⟩ : ∃ k, depth = k + 1 := ⟨depth - 1, by omega⟩
        have hnames : bound.map Prod.fst ≠ [] := by simpa using hbound
        obtain ⟨ms, hms, hnodes⟩ := Substitution.exists_of_toDepth hbound hrun
        obtain rfl := Except.ok.inj (hparse.symm.trans hms)
        have hready : ∀ n ∈ ns, Ready (Substitution.toDepth k) bound n := by
          intro n hn
          cases n with
          | text source => trivial
          | slot s z =>
              intro a ha b hb hshows
              -- an argument and a body are shorter than the content, so one level less is enough for them
              have hs := slot_mem_insides hn
              have hlength : b.length < t.length := length_argument_lt hlocated hn ha hb
              refine ⟨fun hinner => ?_, hwritable s a b hs ha hb hshows hnames⟩
              exact (ihargs s a b hs ha hb hshows hnames rfl hvalues (by omega)
                hinner).1.not_exposes
          | define d source =>
              intro body hbody
              refine ⟨fun hraw => hsettled d source hn hraw (by simp [hbody]),
                fun hraw => ⟨(hbodies d source body hn hraw hbody).exists_reads, fun hinner => ?_⟩⟩
              have hlength : body.length < t.length := length_body_lt hlocated hn hraw hbody
              have hinnervalues : ∀ p ∈ bound.filter fun p => !d.hasParam p.1,
                  '{' ∉ p.2.display := fun p hp => hvalues p (List.mem_filter.1 hp).1
              exact ihbodies d source body hn hraw hbody (visible_map_fst d bound).symm
                hinnervalues (by omega) hinner
        obtain ⟨is, hbecomes, hfollows⟩ :=
          becomes_of_nodes hbound hvalues hlocated hready hbrace hnodes
        obtain ⟨ks, hks, rfl⟩ := hbecomes.exists_reads
        exact ⟨⟨⟨ns, ks, hparse, hks, hfollows⟩, hbecomes.getLast?⟩, fun hnil => absurd hnil hnames⟩

/-! ## Expansion -/

/-- Expanding a definition leaves none of its bound names to later passes: the expansion is read, its
slots and definitions are those of the content without the slots over the names, and no slot over the
names is left in it, the content of definitions that are raw or declare the name apart. -/
theorem Definition.expand_leaves_no_parameter {d : Definition} {args : List Argument}
    {bound : Bindings} {warnings : List Warning} {v w : Vault} {t : Text} (hraw : d.raw = false)
    (hbind : d.bind args = .ok (bound, warnings)) (hvalues : ∀ p ∈ bound, '{' ∉ p.2.display)
    (htidy : Tidy (bound.map Prod.fst) d.content) (hexpand : d.expand bound v = .ok (t, w)) :
    (∀ n, n ∈ bound.map Prod.fst ↔ d.hasParam n = true) ∧ ¬Exposes (bound.map Prod.fst) t ∧
      ∃ ms ns, parse d.content = .ok ms ∧ parse t = .ok ns ∧
        Follows (bound.map Prod.fst) (insides ms) (insides ns) := by
  rw [Definition.expand, if_neg (by simp [hraw]), substitute] at hexpand
  obtain ⟨himage, -⟩ := isImage_of_tidy htidy rfl hvalues (Nat.lt_succ_self _) hexpand
  obtain ⟨ms, ns, hms, hns, hfollows⟩ := himage.reads
  exact ⟨d.mem_names_bind hbind, himage.not_exposes, ms, ns, hms, parse_of_reads hns, hfollows⟩

def cardDefinition : Definition where
  name := "card".toList
  required := ["w".toList, "h".toList]
  content := bracketed
    "[[w]] by [[ h ]]: [[w*h]], [[w*g]][[note(\"of [[w]]\", 2)]][inner(w)][[w]][[h]][/inner]"

def cardArguments : List Argument := [⟨none, .text "3".toList⟩, ⟨none, .text "4".toList⟩]

def cardBindings : Bindings := [("h".toList, .text "4".toList), ("w".toList, .text "3".toList)]

def cardText : Text :=
  bracketed "3 by 4: 12, [[w*g]][[note(\"of 3\", 2)]][inner(w)][[w]]4[/inner]"

theorem not_exposes_cardText : cardDefinition.bind cardArguments = .ok (cardBindings, []) ∧
    cardDefinition.expand cardBindings .empty = .ok (cardText, .empty) ∧
    ¬Exposes ["h".toList, "w".toList] cardText := by
  have hbind : cardDefinition.bind cardArguments = .ok (cardBindings, []) := by decide +kernel
  have hexpand : cardDefinition.expand cardBindings .empty = .ok (cardText, .empty) := by
    decide +kernel
  have htidy : Tidy (cardBindings.map Prod.fst) cardDefinition.content :=
    tidy_of_isTidy (show isTidy 3 _ _ = true by decide +kernel)
  have hleaves := Definition.expand_leaves_no_parameter rfl hbind (by decide) htidy hexpand
  exact ⟨hbind, hexpand, hleaves.2.1⟩

/-- The expansion of the definition that the template begins with. -/
def expansionOf (template : Text) (args : List Argument) : Except Error Text :=
  match parse template with
  | .ok (.define d _ :: _) => do
    let (bound, _) ← d.bind args
    let (t, _) ← d.expand bound .empty
    return t
  | .ok _ => .ok []
  | .error e => .error e

/-- A parameter stays in an expression with another name, in the value of a single tag and in a default;
a brace before a value begins a slot with it; and a block ends elsewhere when it is not understood, before
a value came into what follows it or since a number beside a value has no numeral. -/
theorem expansion_keeps_parameter :
    expansionOf (bracketed "[area(w)][[w*g]][/area]") [⟨none, .text "2".toList⟩] =
      .ok (bracketed "[[w*g]]") ∧
    (parse (bracketed "[[w*g]]")).map insides = .ok [.slot
      { name := "w*g".toList, args := [], raw := false
        expr := some (.binary .mul (.name "w".toList) (.name "g".toList)) }] ∧
    expansionOf (bracketed "[o(x)][i = \"[[x]]\"][[i]][/o]") [⟨none, .text "v".toList⟩] =
      .ok (bracketed "[i = \"[[x]]\"][[i]]") ∧
    expansionOf (bracketed "[o(x)][i(y = \"[[x]]\")][[y]][/i][[i]][/o]")
      [⟨none, .text "v".toList⟩] = .ok (bracketed "[i(y = \"[[x]]\")][[y]][/i][[i]]") ∧
    expansionOf (bracketed "[o(p)][[[[p]]]][/o]") [⟨none, .text "p".toList⟩] =
      .ok (bracketed "[[p]]") ∧
    expansionOf (bracketed "[o(p)][r][[p]][[f(\"[/r][[p]], \"; [[g(\")]][/r]\")]][/o]")
      [⟨none, .text "\"".toList⟩] =
      .ok (bracketed "[r][[p]][[f(\"[/r]\", \"; [[g(\")]][/r]\")]]") ∧
    expansionOf (bracketed "[o(p)][r][[f(\"[[p]]\", " ++ List.replicate 309 '9' ++ bracketed
      ")]][i(p)][[g(\"[/r][[p]][z][r][i(p)]\")]][[p]][/i][/r][[k(\"[/z]\")]][/o]")
      [⟨none, .text "v".toList⟩] = .ok (bracketed
      "[r][[f(\"v\", inf)]][i(p)][[g(\"[/r][[p]][z][r][i(p)]\")]][[p]][/i][/r][[k(\"[/z]\")]]") := by
  decide +kernel

end Stencil
