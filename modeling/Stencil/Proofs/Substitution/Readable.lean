import Stencil.Proofs.Rendering.Steps
import Stencil.Proofs.Substitution.Binding
import Stencil.Proofs.Substitution.Replacement

/-! # Content that can be read

A substitution reads the content of a definition, and with it every text argument that shows a slot and
the content of every definition inside that is not raw, down to the parts where no parameter is visible.
`Readable` content is a template in all these parts. Its expansion fails for want of an argument or in an
expression at most (`toDepth_error_of_readable`), and any other content has no expansion at all
(`readable_of_toDepth`). Reading a definition looks at neither its text arguments nor, where it has to
end, only at its content, so that the content of a definition that is not raw need not be readable. -/
set_option autoImplicit false
namespace Stencil

/-- A text that a substitution of the names into the nodes reads, with the names that are visible in it. -/
inductive ContentPart (names : List Text) (ns : List Node) : List Text → Text → Prop
  | argument {s : Slot} {z u : Text} {a : Argument} : .slot s z ∈ ns → s.expr = none → a ∈ s.args →
      a.value = .text u → showsSlot u = true → ContentPart names ns names u
  | body {d : Definition} {source : DefinitionSource} {body : Text} : .define d source ∈ ns →
      d.raw = false → source.body = some body → ContentPart names ns (d.visible names) body

inductive Readable : List Text → Text → Prop
  | hidden {t : Text} : Readable [] t
  | parts {names : List Text} {t : Text} {ns : List Node} : parse t = .ok ns →
      (∀ names' u, ContentPart names ns names' u → Readable names' u) → Readable names t

theorem ContentPart.length_lt {names names' : List Text} {t u : Text} {ns : List Node}
    (h : ContentPart names ns names' u) (hns : parse t = .ok ns) : u.length < t.length := by
  cases h with
  | argument hs _ ha hu _ => exact length_argument_lt (located_of_parse hns) hs ha hu
  | body hd hraw hbody => exact length_body_lt (located_of_parse hns) hd hraw hbody

theorem Definition.visible_subset {d : Definition} {names names' : List Text} (h : names' ⊆ names) :
    d.visible names' ⊆ d.visible names := by
  intro n hn
  obtain ⟨hmem, hshown⟩ := List.mem_filter.1 hn
  exact List.mem_filter.2 ⟨h hmem, hshown⟩

/-- With fewer names there is less to read. -/
theorem Readable.mono {names : List Text} {t : Text} (h : Readable names t) :
    ∀ {names' : List Text}, names' ⊆ names → Readable names' t := by
  induction h with
  | hidden =>
      intro names' hsub
      obtain rfl := List.subset_nil.1 hsub
      exact .hidden
  | @parts names t ns hns _ ih =>
      intro names' hsub
      refine .parts hns fun names₂ u hpart => ?_
      cases hpart with
      | argument hs hexpr ha hu hshows => exact ih names u (.argument hs hexpr ha hu hshows) hsub
      | body hd hraw hbody =>
          exact ih _ u (.body hd hraw hbody) (Definition.visible_subset hsub)

/-! ## Readability by computation -/

def isReadable : Nat → List Text → Text → Bool
  | 0, names, _ => names = []
  | depth + 1, names, t =>
    names = [] ||
      match parse t with
      | .error _ => false
      | .ok ns => ns.all fun
        | .text _ => true
        | .slot s _ => s.expr.isSome || s.args.all fun a =>
          match a.value with
          | .number _ => true
          | .text u => !showsSlot u || isReadable depth names u
        | .define d source =>
          d.raw || source.body.all fun body => isReadable depth (d.visible names) body

theorem isReadable_nil (depth : Nat) (t : Text) : isReadable depth [] t = true := by
  cases depth <;> simp [isReadable]

/-- One level of the computation looks at the parts. -/
theorem isReadable_succ {depth : Nat} {names : List Text} {t : Text} :
    isReadable (depth + 1) names t = true ↔ names = [] ∨ ∃ ns, parse t = .ok ns ∧
      ∀ names' u, ContentPart names ns names' u → isReadable depth names' u = true := by
  rw [isReadable, Bool.or_eq_true, decide_eq_true_iff]
  refine or_congr_right ?_
  cases hns : parse t with
  | error e => simp
  | ok ns =>
      rw [List.all_eq_true]
      constructor
      · refine fun hall => ⟨ns, rfl, fun names' u hpart => ?_⟩
        cases hpart with
        | argument hs hexpr ha hu hshows =>
            have hslot := hall _ hs
            simp only [hexpr, Option.isSome_none, Bool.false_or, List.all_eq_true] at hslot
            have harg := hslot _ ha
            simpa only [hu, hshows, Bool.not_true, Bool.false_or] using harg
        | body hd hraw hbody =>
            have hdefine := hall _ hd
            simpa only [hraw, hbody, Bool.false_or, Option.all_some] using hdefine
      · rintro ⟨ms, hms, hparts⟩ n hn
        obtain rfl := Except.ok.inj hms
        cases n with
        | text source => rfl
        | slot s z =>
            cases hexpr : s.expr with
            | some e => simp only [hexpr, Option.isSome_some, Bool.true_or]
            | none =>
                simp only [hexpr, Option.isSome_none, Bool.false_or, List.all_eq_true]
                intro a ha
                cases hvalue : a.value with
                | number y => rfl
                | text u =>
                    cases hshows : showsSlot u with
                    | false => simp only [hshows, Bool.not_false, Bool.true_or]
                    | true =>
                        simp only [hshows, Bool.not_true, Bool.false_or]
                        exact hparts names u (.argument hn hexpr ha hvalue hshows)
        | define d source =>
            cases hraw : d.raw with
            | true => simp only [hraw, Bool.true_or]
            | false =>
                cases hbody : source.body with
                | none => simp only [hraw, hbody, Option.all_none, Bool.or_true]
                | some body =>
                    simp only [hraw, hbody, Option.all_some, Bool.false_or]
                    exact hparts _ body (.body hn hraw hbody)

theorem readable_of_isReadable : ∀ {depth : Nat} {names : List Text} {t : Text},
    isReadable depth names t = true → Readable names t := by
  intro depth
  induction depth with
  | zero =>
      intro names t h
      obtain rfl : names = [] := by simpa [isReadable] using h
      exact .hidden
  | succ depth ih =>
      intro names t h
      rcases isReadable_succ.1 h with rfl | ⟨ns, hns, hparts⟩
      · exact .hidden
      · exact .parts hns fun names' u hpart => ih (hparts names' u hpart)

theorem isReadable_of_readable {names : List Text} {t : Text} (h : Readable names t) :
    ∀ {depth : Nat}, t.length < depth → isReadable depth names t = true := by
  induction h with
  | hidden => intro depth _; exact isReadable_nil _ _
  | @parts names t ns hns _ ih =>
      intro depth hdepth
      cases depth with
      | zero => cases hdepth
      | succ depth =>
          refine isReadable_succ.2 (.inr ⟨ns, hns, fun names' u hpart => ?_⟩)
          have hlt := hpart.length_lt hns
          exact ih names' u hpart (by omega)

instance (names : List Text) (t : Text) : Decidable (Readable names t) :=
  decidable_of_iff (isReadable (t.length + 1) names t = true)
    ⟨readable_of_isReadable, fun h => isReadable_of_readable h (Nat.lt_succ_self _)⟩

/-! ## Where a substitution fails -/

namespace Substitution

variable {inner : Inner} {bound : Bindings}

theorem error_of_bind {α β ε : Type} {p : Except ε α} {f : α → Except ε β} {e : ε}
    (h : (p >>= f) = .error e) : p = .error e ∨ ∃ a, p = .ok a ∧ f a = .error e := by
  cases p with
  | error e' => exact .inl (congrArg Except.error (Except.error.inj h))
  | ok a => exact .inr ⟨a, rfl, h⟩

theorem nodes_error {e : Error} : ∀ {ns : List Node} {v : Vault},
    nodes inner bound ns v = .error e → ∃ n ∈ ns, ∃ w, node inner bound n w = .error e := by
  intro ns
  induction ns with
  | nil => intro v h; cases h
  | cons n ns ih =>
      intro v h
      rcases error_of_bind h with hn | ⟨⟨x, v₁⟩, -, h⟩
      · exact ⟨n, List.mem_cons_self .., v, hn⟩
      · rcases error_of_bind h with hns | ⟨_, -, h⟩
        · obtain ⟨m, hm, w, hw⟩ := ih hns
          exact ⟨m, List.mem_cons_of_mem _ hm, w, hw⟩
        · cases h

theorem arguments_error {e : Error} : ∀ {as : List Argument} {v : Vault},
    arguments inner bound as v = .error e →
      ∃ a ∈ as, ∃ t w, a.value = .text t ∧ showsSlot t = true ∧ inner t bound w = .error e := by
  intro as
  induction as with
  | nil => intro v h; cases h
  | cons a as ih =>
      intro v h
      have hlater : ∀ {x : Value} {v₁ : Vault},
          (arguments inner bound as v₁ >>= fun p =>
            pure ({ a with value := x } :: p.1, p.2) : Except Error _) = .error e →
          ∃ b ∈ a :: as, ∃ t w, b.value = .text t ∧ showsSlot t = true ∧
            inner t bound w = .error e := by
        intro x v₁ hrun
        rcases error_of_bind hrun with has | ⟨_, -, hrun⟩
        · obtain ⟨b, hb, rest⟩ := ih has
          exact ⟨b, List.mem_cons_of_mem _ hb, rest⟩
        · cases hrun
      obtain ⟨name, value⟩ := a
      cases value with
      | number y => exact hlater h
      | text t =>
          rw [arguments] at h
          by_cases hshows : (Text.before? ['{', '{'] t).isSome = true
          · simp only [if_pos hshows] at h
            rcases error_of_bind h with ht | ⟨_, -, h⟩
            · exact ⟨_, List.mem_cons_self .., t, v, rfl, hshows, ht⟩
            · exact hlater h
          · simp only [if_neg hshows] at h
            exact hlater h

/-- A substitution into nodes fails in an expression or in a part. -/
theorem nodes_error_cases {ns : List Node} {v : Vault} {e : Error}
    (h : nodes inner bound ns v = .error e) :
    (∃ f, e = .eval f) ∨ ∃ bound' u w, ContentPart (bound.map Prod.fst) ns (bound'.map Prod.fst) u ∧
      inner u bound' w = .error e := by
  obtain ⟨n, hn, w, hnode⟩ := nodes_error h
  cases n with
  | text source => cases hnode
  | slot s z =>
      rw [node, slot] at hnode
      split at hnode
      next expr _ =>
        split at hnode
        · split at hnode
          · cases hnode
          next f _ => exact .inl ⟨f, (Except.error.inj hnode).symm⟩
        · cases hnode
      next hexpr =>
        split at hnode
        · split at hnode <;> cases hnode
        · rcases error_of_bind hnode with hargs | ⟨_, -, hnode⟩
          · obtain ⟨a, ha, t, w', ht, hshows, herror⟩ := arguments_error hargs
            exact .inr ⟨bound, t, w', .argument hn hexpr ha ht hshows, herror⟩
          · cases hnode
  | define d source =>
      rw [node] at hnode
      split at hnode
      · cases hnode
      next body hbody =>
        split at hnode
        · cases hnode
        next hraw =>
          rcases error_of_bind hnode with herror | ⟨_, -, hnode⟩
          · refine .inr ⟨bound.filter fun p => !d.hasParam p.1, body, w, ?_, herror⟩
            rw [← visible_map_fst]
            exact .body hn (by simpa using hraw) hbody
          · cases hnode

theorem toDepth_error_of_readable {names : List Text} {t : Text} (h : Readable names t) :
    ∀ {depth : Nat} {bound : Bindings} {v : Vault} {e : Error}, bound.map Prod.fst = names →
      toDepth depth t bound v = .error e → ∃ f, e = .eval f := by
  induction h with
  | hidden =>
      intro depth bound v e hbound herror
      obtain rfl := List.map_eq_nil_iff.1 hbound
      rw [toDepth_nil] at herror
      cases herror
  | @parts names t ns hns _ ih =>
      intro depth bound v e hbound herror
      cases depth with
      | zero => cases herror
      | succ depth =>
          rw [toDepth_succ] at herror
          split at herror
          · cases herror
          · rw [hns] at herror
            rcases nodes_error_cases herror with heval | ⟨bound', u, w, hpart, hinner⟩
            · exact heval
            · exact ih _ u (hbound ▸ hpart) rfl hinner

/-! ## What a substitution that succeeds has read -/

theorem exists_of_mem_nodes {n : Node} : ∀ {ns : List Node} {v : Vault} {r : Text × Vault},
    nodes inner bound ns v = .ok r → n ∈ ns → ∃ w r', node inner bound n w = .ok r' := by
  intro ns
  induction ns with
  | nil => intro v r _ hn; cases hn
  | cons m ns ih =>
      intro v r h hn
      obtain ⟨u, w⟩ := r
      obtain ⟨x, v₁, y, hm, hns, -⟩ := exists_of_nodes_cons h
      rcases List.mem_cons.1 hn with rfl | hn
      · exact ⟨v, _, hm⟩
      · exact ih hns hn

theorem exists_of_mem_arguments {a : Argument} {t : Text} (hvalue : a.value = .text t)
    (hshows : showsSlot t = true) : ∀ {as : List Argument} {v : Vault} {r : List Argument × Vault},
    arguments inner bound as v = .ok r → a ∈ as → ∃ w r', inner t bound w = .ok r' := by
  intro as
  induction as with
  | nil => intro v r _ ha; cases ha
  | cons b as ih =>
      intro v r h ha
      obtain ⟨bs, w⟩ := r
      obtain ⟨x, v₁, others, hstep, hrest, -⟩ := exists_of_arguments_cons h
      rcases List.mem_cons.1 ha with rfl | ha
      · generalize hy : a.value = y at hstep
        cases hstep with
        | same hnone =>
            have hfalse := hnone t (hy.symm.trans hvalue)
            rw [showsSlot, hfalse] at hshows
            cases hshows
        | text _ hinner =>
            obtain rfl := Value.text.inj (hy.symm.trans hvalue)
            exact ⟨v, _, hinner⟩
      · exact ih hrest ha

theorem exists_of_part {ns : List Node} {v : Vault} {r : Text × Vault} {names : List Text} {u : Text}
    (h : nodes inner bound ns v = .ok r) (hpart : ContentPart (bound.map Prod.fst) ns names u) :
    ∃ bound' w r', bound'.map Prod.fst = names ∧ inner u bound' w = .ok r' := by
  cases hpart with
  | @argument s z u a hs hexpr ha hu hshows =>
      obtain ⟨w, r', hnode⟩ := exists_of_mem_nodes h hs
      simp only [node, slot, hexpr, if_neg (List.ne_nil_of_mem ha)] at hnode
      obtain ⟨_, hargs, -⟩ := exists_of_bind hnode
      obtain ⟨w', r₂, hinner⟩ := exists_of_mem_arguments hu hshows hargs ha
      exact ⟨bound, w', r₂, rfl, hinner⟩
  | @body d source body hd hraw hbody =>
      obtain ⟨w, r', hnode⟩ := exists_of_mem_nodes h hd
      simp only [node, hbody, hraw] at hnode
      obtain ⟨r₂, hinner, -⟩ := exists_of_bind hnode
      exact ⟨_, w, r₂, (visible_map_fst d bound).symm, hinner⟩

theorem readable_of_toDepth : ∀ {depth : Nat} {t : Text} {bound : Bindings} {v : Vault}
    {r : Text × Vault}, t.length < depth → toDepth depth t bound v = .ok r →
      Readable (bound.map Prod.fst) t := by
  intro depth
  induction depth with
  | zero => intro t bound v r hlength; cases hlength
  | succ depth ih =>
      intro t bound v r hlength h
      by_cases hbound : bound = []
      · rw [hbound]
        exact .hidden
      · obtain ⟨u, w⟩ := r
        obtain ⟨ns, hns, hnodes⟩ := exists_of_toDepth hbound h
        refine .parts hns fun names u hpart => ?_
        have hlt := hpart.length_lt hns
        obtain ⟨bound', w', r', rfl, hinner⟩ := exists_of_part hnodes hpart
        exact ih (by omega) hinner

end Substitution

/-! ## Expansions -/

def Definition.params (d : Definition) : List Text := d.required ++ d.optional.map Prod.fst

theorem Definition.mem_params {d : Definition} {n : Text} :
    n ∈ d.params ↔ d.hasParam n = true := by
  simp [params, hasParam]

/-- What can keep a definition with readable content from being expanded. -/
inductive ExpansionError (d : Definition) : Error → Prop
  | missing {param : Text} : param ∈ d.required → ExpansionError d (.missingParam d.name param)
  | eval (f : EvalError) : ExpansionError d (.eval f)

theorem Definition.bindRequired_error {d : Definition} {args : List Argument} {e : Error} :
    ∀ {params : List Text} {values : List Value} {bound : Bindings}, params ⊆ d.required →
      d.bindRequired args params values bound = .error e → ExpansionError d e := by
  intro params
  induction params with
  | nil => intro values bound _ h; cases h
  | cons param params ih =>
      intro values bound hsub h
      obtain ⟨hparam, hsub⟩ := List.cons_subset.1 hsub
      cases values with
      | cons x values => exact ih hsub h
      | nil =>
          rw [bindRequired] at h
          split at h
          · exact ih hsub h
          · obtain rfl := Except.error.inj h
            exact .missing hparam

theorem Definition.bind_error {d : Definition} {args : List Argument} {e : Error}
    (h : d.bind args = .error e) : ExpansionError d e := by
  rw [bind] at h
  split at h
  next e' hrequired =>
    obtain rfl := Except.error.inj h
    exact bindRequired_error (List.Subset.refl _) hrequired
  next => cases h

theorem Definition.expand_error {d : Definition} {args : List Argument} {bound : Bindings}
    {warnings : List Warning} {v : Vault} {e : Error} (hreadable : Readable d.params d.content)
    (hbind : d.bind args = .ok (bound, warnings)) (h : d.expand bound v = .error e) :
    ExpansionError d e := by
  have hsub : bound.map Prod.fst ⊆ d.params := by
    intro n hn
    exact mem_params.2 ((mem_names_bind hbind n).1 hn)
  rw [expand] at h
  split at h
  · cases h
  · obtain ⟨f, rfl⟩ := Substitution.toDepth_error_of_readable (hreadable.mono hsub) rfl h
    exact .eval f

theorem Definition.readable_of_expand {d : Definition} {args : List Argument} {bound : Bindings}
    {warnings : List Warning} {v : Vault} {r : Text × Vault} (hraw : d.raw = false)
    (hbind : d.bind args = .ok (bound, warnings)) (h : d.expand bound v = .ok r) :
    Readable d.params d.content := by
  have hsub : d.params ⊆ bound.map Prod.fst := by
    intro n hn
    exact (mem_names_bind hbind n).2 (mem_params.1 hn)
  rw [expand, hraw] at h
  exact (Substitution.readable_of_toDepth (Nat.lt_succ_self _) h).mono hsub

/-- The expansion of a definition with readable content fails for want of an argument or in an expression
at most; a definition with other content is never expanded. -/
theorem Rendering.expansion_error (d : Definition) (hraw : d.raw = false) :
    (Readable d.params d.content → ∀ s w e w', (expansion d s).run.run w = (.error e, w') →
      ExpansionError d e) ∧
    (¬ Readable d.params d.content → ∀ s w, ∃ e w', (expansion d s).run.run w = (.error e, w')) := by
  constructor
  · intro hreadable s w e w' hrun
    rw [run_expansion] at hrun
    cases hbind : d.bind s.args with
    | error e' =>
        rw [hbind] at hrun
        obtain rfl := Except.error.inj (Prod.mk.inj hrun).1
        exact Definition.bind_error hbind
    | ok r =>
        obtain ⟨bound, warnings⟩ := r
        rw [hbind] at hrun
        cases hexpand : d.expand bound w.vault with
        | error e' =>
            simp only [hexpand] at hrun
            obtain rfl := Except.error.inj (Prod.mk.inj hrun).1
            exact Definition.expand_error hreadable hbind hexpand
        | ok r =>
            simp only [hexpand] at hrun
            cases (Prod.mk.inj hrun).1
  · intro hnot s w
    rw [run_expansion]
    cases hbind : d.bind s.args with
    | error e => exact ⟨e, w, rfl⟩
    | ok r =>
        obtain ⟨bound, warnings⟩ := r
        cases hexpand : d.expand bound w.vault with
        | error e => exact ⟨e, _, by simp only [hexpand]; rfl⟩
        | ok r => exact absurd (Definition.readable_of_expand hraw hbind hexpand) hnot

def readableText : Text :=
  bracketed "[card(x, y)][row(y)]<[[y]][[f(\"[[x]]\")]]>[/row][[row(1)]][[x / y]][/card]"

def readableCard : Definition :=
  { name := "card".toList, required := [['x'], ['y']]
    content := bracketed "[row(y)]<[[y]][[f(\"[[x]]\")]]>[/row][[row(1)]][[x / y]]" }

theorem Rendering.expansion_error_card :
    parse readableText = .ok [.define readableCard
      ⟨bracketed "[card(x, y)]", some readableCard.content, bracketed "[/card]"⟩] ∧
    readableCard.raw = false ∧
    Readable readableCard.params readableCard.content ∧
    ∀ s w e w', (expansion readableCard s).run.run w = (.error e, w') →
      ExpansionError readableCard e := by
  have hreadable : Readable readableCard.params readableCard.content := by decide +kernel
  exact ⟨by decide +kernel, rfl, hreadable, (expansion_error readableCard rfl).1 hreadable⟩

def brokenArgument : Definition :=
  { name := ['d'], required := [['x']], content := bracketed "[[f(\"[[1bad\")]]" }

/-- The block `e` is closed by a closing tag in a literal, another one than in its place. -/
def brokenBlock : Definition :=
  { name := ['d'], required := [['x']], content := bracketed "[e][d][[f(\"[/d][/x][/e]\")]]" }

/-- Two definitions that are read as such, and are not raw; their expansion fails as their content is
read again. -/
theorem Rendering.expansion_broken :
    let s : Slot := { name := ['d'], args := [⟨none, .text ['v']⟩], raw := false, expr := none }
    let w : Work := { context := {}, vault := .empty }
    (parse (bracketed "[d(x)][[f(\"[[1bad\")]][/d]") = .ok [.define brokenArgument
        ⟨bracketed "[d(x)]", some brokenArgument.content, bracketed "[/d]"⟩] ∧
      brokenArgument.raw = false ∧
      ((expansion brokenArgument s).run.run w).1 =
        .error (.syntactic { SyntaxError.new [['"', '}', '}', '"']] none 6 with column := 7 })) ∧
    parse (bracketed "[d(x)][e][d][[f(\"[/d][/x][/e]\")]][/d]") = .ok [.define brokenBlock
        ⟨bracketed "[d(x)]", some brokenBlock.content, bracketed "[/d]"⟩] ∧
      brokenBlock.raw = false ∧
      ((expansion brokenBlock s).run.run w).1 = .error (.mismatchedTags ['e'] ['x'] 15) := by
  decide +kernel

end Stencil
