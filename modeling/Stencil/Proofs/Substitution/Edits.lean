import Stencil.Proofs.Tag.Tiling
import Stencil.Proofs.Text.Edits
import Stencil.Substitution

/-! # Substitution node by node

The edits of a substitution are those of a row of patches, a few for each node, whose sources are the content
(`edits_placedFrom`, `flatMap_source_of_patchesAll`). So the content after them is what the nodes become, one
after the other (`toDepth_succ`). -/
set_option autoImplicit false
namespace Stencil.Substitution

variable {inner : Inner} {bound : Bindings}

/-! ## What nodes become -/

def slot (inner : Inner) (bound : Bindings) (s : Slot) (source : Text) (v : Vault) :
    Except Error (Text × Vault) :=
  match s.expr with
  | some e =>
    if e.names.all fun n => (bound.lookup n).isSome then
      match e.eval fun n => bound.lookup n with
      | .ok x => .ok (formatNumber x, v)
      | .error f => .error (.eval f)
    else .ok (source, v)
  | none =>
    if s.args = [] then
      match bound.lookup s.name with
      | some value => .ok (if s.raw then v.protect value.display else (value.display, v))
      | none => .ok (source, v)
    else do
      let (args, v) ← arguments inner bound s.args v
      return (if args = s.args then source else { s with args }.source, v)

def node (inner : Inner) (bound : Bindings) (n : Node) (v : Vault) : Except Error (Text × Vault) :=
  match n with
  | .text source => .ok (source, v)
  | .slot s source => slot inner bound s source v
  | .define d source =>
    match source.body with
    | none => .ok (source.text, v)
    | some body =>
      if d.raw then .ok (source.text, v)
      else do
        let (body, v) ← inner body (bound.filter fun p => !d.hasParam p.1) v
        return ({ source with body := some body }.text, v)

def nodes (inner : Inner) (bound : Bindings) : List Node → Vault → Except Error (Text × Vault)
  | [], v => .ok ([], v)
  | n :: rest, v => do
    let (t, v) ← node inner bound n v
    let (ts, v) ← nodes inner bound rest v
    return (t ++ ts, v)

/-! ## Patches -/

/-- The parts of a node, with what becomes of a slot or of the content of a block. -/
def patches (inner : Inner) (bound : Bindings) (n : Node) (v : Vault) :
    Except Error (List Patch × Vault) :=
  match n with
  | .text source => .ok ([⟨source, none⟩], v)
  | .slot s source => do
    let (t, v) ← slot? inner bound s v
    return ([⟨source, t⟩], v)
  | .define d source =>
    match source.body with
    | none => .ok ([⟨source.text, none⟩], v)
    | some body =>
      if d.raw then .ok ([⟨source.text, none⟩], v)
      else do
        let (t, v) ← inner body (bound.filter fun p => !d.hasParam p.1) v
        return ([⟨source.opening, none⟩, ⟨body, if t = body then none else some t⟩,
          ⟨source.closing, none⟩], v)

def patchesAll (inner : Inner) (bound : Bindings) : List Node → Vault → Except Error (List Patch × Vault)
  | [], v => .ok ([], v)
  | n :: rest, v => do
    let (ps, v) ← patches inner bound n v
    let (qs, v) ← patchesAll inner bound rest v
    return (ps ++ qs, v)

theorem exists_of_bind {α β ε : Type} {p : Except ε α} {f : α → Except ε β} {b : β}
    (h : (p >>= f) = .ok b) : ∃ a, p = .ok a ∧ f a = .ok b := by
  cases p with
  | error e => cases h
  | ok a => exact ⟨a, rfl, h⟩

theorem ok_bind {α β ε : Type} (a : α) (f : α → Except ε β) : (Except.ok a >>= f) = f a := rfl

theorem map_ok {α β ε : Type} (f : α → β) (a : α) : (Except.ok a : Except ε α).map f = .ok (f a) := rfl

theorem pure_eq_ok {α ε : Type} (a : α) : (pure a : Except ε α) = .ok a := rfl

theorem slot_eq (s : Slot) (source : Text) (v : Vault) : slot inner bound s source v =
    (slot? inner bound s v).map fun r => (r.1.getD source, r.2) := by
  unfold slot slot?
  cases s.expr with
  | some e =>
      simp only
      split
      · cases e.eval fun n => bound.lookup n <;> rfl
      · rfl
  | none =>
      simp only
      by_cases hargs : s.args = []
      · rw [if_pos hargs, if_pos hargs]
        cases bound.lookup s.name with
        | none => rfl
        | some value => cases s.raw <;> rfl
      · rw [if_neg hargs, if_neg hargs]
        cases arguments inner bound s.args v with
        | error e => rfl
        | ok r =>
            show Except.ok _ = Except.ok _
            by_cases hsame : r.1 = s.args
            · simp only [if_pos hsame, Option.getD_none]
            · simp only [if_neg hsame, Option.getD_some]

/-- The text of the patches is what the node becomes. -/
theorem node_eq (n : Node) (v : Vault) : node inner bound n v =
    (patches inner bound n v).map fun r => (r.1.flatMap Patch.text, r.2) := by
  cases n with
  | text source => simp [node, patches, map_ok, Patch.text]
  | slot s source =>
      simp only [node, patches, slot_eq]
      cases slot? inner bound s v with
      | error e => rfl
      | ok r => simp [map_ok, ok_bind, pure_eq_ok, Patch.text]
  | define d source =>
      simp only [node, patches]
      cases hbody : source.body with
      | none => simp [map_ok, Patch.text]
      | some body =>
          simp only
          by_cases hraw : d.raw = true
          · rw [if_pos hraw, if_pos hraw]
            simp [map_ok, Patch.text]
          · rw [if_neg hraw, if_neg hraw]
            cases inner body (bound.filter fun p => !d.hasParam p.1) v with
            | error e => rfl
            | ok r =>
                by_cases hsame : r.1 = body
                · simp [map_ok, ok_bind, pure_eq_ok, Patch.text, DefinitionSource.text, hsame]
                · simp [map_ok, ok_bind, pure_eq_ok, Patch.text, DefinitionSource.text, hsame]

theorem nodes_eq (ns : List Node) : ∀ v : Vault, nodes inner bound ns v =
    (patchesAll inner bound ns v).map fun r => (r.1.flatMap Patch.text, r.2) := by
  induction ns with
  | nil => intro v; rfl
  | cons n ns ih =>
      intro v
      simp only [nodes, patchesAll, node_eq]
      cases patches inner bound n v with
      | error e => rfl
      | ok r =>
          show (nodes inner bound ns r.2 >>= _) = Except.map _ (patchesAll inner bound ns r.2 >>= _)
          rw [ih]
          cases patchesAll inner bound ns r.2 with
          | error e => rfl
          | ok r' =>
              simp only [map_ok, ok_bind, pure_eq_ok, List.flatMap_append]

/-! ## The patches and the content -/

def KeepsNil (inner : Inner) : Prop := ∀ bound v r, inner [] bound v = .ok r → r.1 = []

/-- A node is one patch, or else the content of a block is one, between those of the tags. -/
theorem patches_cases {n : Node} {v w : Vault} {ps : List Patch}
    (h : patches inner bound n v = .ok (ps, w)) : (∃ t, ps = [⟨n.source, t⟩]) ∨
      ∃ opening body closing t, n.source = opening ++ (body ++ closing) ∧
        ps = [⟨opening, none⟩, ⟨body, t⟩, ⟨closing, none⟩] ∧ (KeepsNil inner → body = [] → t = none) := by
  cases n with
  | text source =>
      obtain ⟨rfl, -⟩ := Prod.mk.inj (Except.ok.inj h)
      exact .inl ⟨none, rfl⟩
  | slot s source =>
      obtain ⟨r, -, h⟩ := exists_of_bind h
      obtain ⟨rfl, -⟩ := Prod.mk.inj (Except.ok.inj h)
      exact .inl ⟨r.1, rfl⟩
  | define d source =>
      simp only [patches] at h
      split at h
      next =>
        obtain ⟨rfl, -⟩ := Prod.mk.inj (Except.ok.inj h)
        exact .inl ⟨none, rfl⟩
      next body hbody =>
        split at h
        next =>
          obtain ⟨rfl, -⟩ := Prod.mk.inj (Except.ok.inj h)
          exact .inl ⟨none, rfl⟩
        next =>
          obtain ⟨r, hr, h⟩ := exists_of_bind h
          obtain ⟨rfl, -⟩ := Prod.mk.inj (Except.ok.inj h)
          refine .inr ⟨source.opening, body, source.closing, _, ?_, rfl, ?_⟩
          · simp [Node.source, DefinitionSource.text, hbody]
          · rintro hinner rfl
            exact if_pos (hinner _ _ r hr)

theorem flatMap_source_of_patches {n : Node} {v w : Vault} {ps : List Patch}
    (h : patches inner bound n v = .ok (ps, w)) : ps.flatMap Patch.source = n.source := by
  rcases patches_cases h with ⟨t, rfl⟩ | ⟨opening, body, closing, t, hsource, rfl, -⟩
  · exact List.append_nil n.source
  · rw [hsource]
    simp

theorem flatMap_source_of_patchesAll {ns : List Node} : ∀ {v w : Vault} {ps : List Patch},
    patchesAll inner bound ns v = .ok (ps, w) → ps.flatMap Patch.source = ns.flatMap Node.source := by
  induction ns with
  | nil =>
      intro v w ps h
      obtain ⟨rfl, -⟩ := Prod.mk.inj (Except.ok.inj h)
      rfl
  | cons n ns ih =>
      intro v w ps h
      obtain ⟨⟨ps, v₁⟩, hps, h⟩ := exists_of_bind h
      obtain ⟨⟨qs, v₂⟩, hqs, h⟩ := exists_of_bind h
      obtain ⟨rfl, rfl⟩ := Prod.mk.inj (Except.ok.inj h)
      rw [List.flatMap_append, flatMap_source_of_patches hps, ih hqs, List.flatMap_cons]

theorem proper_of_patches (hinner : KeepsNil inner) {n : Node} (hn : n.source ≠ []) {v w : Vault}
    {ps : List Patch} (h : patches inner bound n v = .ok (ps, w)) : Patch.Proper ps := by
  rcases patches_cases h with ⟨t, rfl⟩ | ⟨opening, body, closing, t, -, rfl, hempty⟩
  · simpa [Patch.Proper] using fun _ => hn
  · simpa [Patch.Proper] using fun hchanged hnil => hchanged (hempty hinner hnil)

theorem proper_of_patchesAll (hinner : KeepsNil inner) {ns : List Node} : (∀ n ∈ ns, n.source ≠ []) →
    ∀ {v w : Vault} {ps : List Patch}, patchesAll inner bound ns v = .ok (ps, w) → Patch.Proper ps := by
  induction ns with
  | nil =>
      intro _ v w ps h
      obtain ⟨rfl, -⟩ := Prod.mk.inj (Except.ok.inj h)
      exact List.forall_mem_nil _
  | cons n ns ih =>
      intro hne v w ps h
      obtain ⟨hn, hns⟩ := List.forall_mem_cons.1 hne
      obtain ⟨⟨ps, v₁⟩, hps, h⟩ := exists_of_bind h
      obtain ⟨⟨qs, v₂⟩, hqs, h⟩ := exists_of_bind h
      obtain ⟨rfl, rfl⟩ := Prod.mk.inj (Except.ok.inj h)
      exact List.forall_mem_append.2 ⟨proper_of_patches hinner hn hps, ih hns hqs⟩

/-! ## The edits -/

/-- The edit of a node is that of its patches. -/
theorem edit?_eq (inner : Inner) (bound : Bindings) (n : Node) (offset : Nat) (v : Vault) :
    ((edit? inner bound n ⟨offset, offset + Text.size n.source⟩ v).map fun r => (r.1.toList, r.2)) =
      (patches inner bound n v).map fun r => (Patch.editsFrom offset r.1, r.2) := by
  cases n with
  | text source => rfl
  | slot s source =>
      simp only [edit?, patches]
      cases slot? inner bound s v with
      | error e => rfl
      | ok r => simp [map_ok, ok_bind, pure_eq_ok, Patch.editsFrom, Patch.edit?, Node.source]
  | define d source =>
      simp only [edit?, patches]
      cases source.body with
      | none => rfl
      | some body =>
          simp only
          by_cases hraw : d.raw = true
          · rw [if_pos hraw, if_pos hraw]
            rfl
          · rw [if_neg hraw, if_neg hraw]
            cases inner body (bound.filter fun p => !d.hasParam p.1) v with
            | error e => rfl
            | ok r =>
                by_cases hsame : r.1 = body
                · simp [map_ok, ok_bind, pure_eq_ok, Patch.editsFrom, Patch.edit?, hsame]
                · simp [map_ok, ok_bind, pure_eq_ok, Patch.editsFrom, Patch.edit?, hsame,
                    DefinitionSource.bodySpan]

theorem edit?_bind {α : Type} (n : Node) (offset : Nat) (v : Vault)
    (f : List Edit × Vault → Except Error α) :
    (edit? inner bound n ⟨offset, offset + Text.size n.source⟩ v >>= fun r => f (r.1.toList, r.2)) =
      patches inner bound n v >>= fun r => f (Patch.editsFrom offset r.1, r.2) := by
  have h := congrArg (· >>= f) (edit?_eq inner bound n offset v)
  exact (bind_map_left _ _ f).symm.trans (h.trans (bind_map_left _ _ f))

theorem edits_placedFrom (ns : List Node) : ∀ (offset : Nat) (v : Vault),
    edits inner bound (Node.placedFrom offset ns) v =
      (patchesAll inner bound ns v).map fun r => (Patch.editsFrom offset r.1, r.2) := by
  induction ns with
  | nil => intro offset v; rfl
  | cons n ns ih =>
      intro offset v
      refine (edit?_bind n offset v fun r =>
        edits inner bound (Node.placedFrom (offset + Text.size n.source) ns) r.2 >>= fun q =>
          pure (r.1 ++ q.1, q.2)).trans ?_
      rw [patchesAll]
      cases hps : patches inner bound n v with
      | error e => rfl
      | ok r =>
          show (edits inner bound (Node.placedFrom _ ns) r.2 >>= _) =
            Except.map _ (patchesAll inner bound ns r.2 >>= _)
          rw [ih]
          cases patchesAll inner bound ns r.2 with
          | error e => rfl
          | ok q =>
              simp only [map_ok, ok_bind, pure_eq_ok, Patch.editsFrom_append,
                flatMap_source_of_patches hps]

/-- The content after its edits is what its nodes become. -/
theorem applyAll_edits (hinner : KeepsNil inner) {t : Text} {ns : List Node} (hns : parse t = .ok ns)
    (v : Vault) : (edits inner bound (Node.placedFrom 0 ns) v >>= fun r =>
      (pure (Edit.applyAll t r.1, r.2) : Except Error _)) = nodes inner bound ns v := by
  rw [edits_placedFrom, nodes_eq]
  cases hps : patchesAll inner bound ns v with
  | error e => rfl
  | ok r =>
      have hlocated := located_of_parse hns
      have hproper := proper_of_patchesAll hinner hlocated.source_ne_nil hps
      have hsource : r.1.flatMap Patch.source = t := by
        rw [flatMap_source_of_patchesAll hps, hlocated.flatMap_source]
        rfl
      show Except.ok (Edit.applyAll t _, _) = Except.ok _
      rw [← hsource, Patch.applyAll_of_perm hproper (.refl _)]

theorem keepsNil_toDepth (depth : Nat) : KeepsNil (toDepth depth) := by
  intro bound v r h
  cases depth with
  | zero =>
      obtain rfl := Except.ok.inj h
      rfl
  | succ depth =>
      rw [toDepth] at h
      split at h
      next =>
        obtain rfl := Except.ok.inj h
        rfl
      next =>
        obtain ⟨ns, hns, h⟩ := exists_of_bind h
        have hnil : parse [] = .ok [] := by rw [parse, Cursor.start, Node.from?_nil]; rfl
        obtain rfl := Except.ok.inj (hnil.symm.trans hns)
        obtain rfl := Except.ok.inj h
        rfl

theorem keepsNil_substitute : KeepsNil substitute := keepsNil_toDepth 1

theorem toDepth_succ (depth : Nat) (t : Text) (bound : Bindings) (v : Vault) :
    toDepth (depth + 1) t bound v =
      if bound = [] then .ok (t, v) else parse t >>= fun ns => nodes (toDepth depth) bound ns v := by
  rw [toDepth]
  split
  next => rfl
  next =>
    cases hns : parse t with
    | error e => rfl
    | ok ns => exact applyAll_edits (keepsNil_toDepth depth) hns v

end Stencil.Substitution
