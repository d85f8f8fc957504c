import Stencil.Proofs.Tag.Parts

/-! # Pieces of a text

A template consists of the literals that are read in its tags, however deep in its blocks, and of the bare
characters around them (`piecesOf`). -/
set_option autoImplicit false
namespace Stencil

open Reader (unquote?)

namespace Reader

/-- A literal ends with its quotation mark, whatever follows. -/
theorem unquote?_of_unquote? {t s after : Text} (h : unquote? t = some (s, after)) :
    ∃ z, t = z ++ '"' :: after ∧ ∀ r, unquote? (z ++ '"' :: r) = some (s, r) := by
  obtain ⟨z, hz, hq⟩ := quoted_of_unquote? h
  exact ⟨z, hz, hq.unquote?⟩

end Reader

/-- What stands between the quotation marks of a literal, and the text that it is read as. -/
@[ext] structure Literal where
  inside : Text
  value : Text
  closed : unquote? (inside ++ ['"']) = some (value, [])

namespace Literal

def text (l : Literal) : Text := '"' :: (l.inside ++ ['"'])

theorem reads (l : Literal) (r : Text) : unquote? (l.inside ++ '"' :: r) = some (l.value, r) := by
  obtain ⟨z, hz, hall⟩ := Reader.unquote?_of_unquote? l.closed
  obtain rfl : l.inside = z := List.append_cancel_right hz
  exact hall r

def ofUnquote {t value after : Text} (h : unquote? t = some (value, after)) : Literal where
  inside := t.take (t.length - (after.length + 1))
  value := value
  closed := by
    obtain ⟨z, rfl, hall⟩ := Reader.unquote?_of_unquote? h
    have hlength : (z ++ '"' :: after).length - (after.length + 1) = z.length := by simp
    rw [hlength, List.take_left]
    exact hall []

theorem inside_append_ofUnquote {t value after : Text} (h : unquote? t = some (value, after)) :
    (ofUnquote h).inside ++ '"' :: after = t := by
  obtain ⟨z, rfl, -⟩ := Reader.unquote?_of_unquote? h
  simp [ofUnquote]

theorem ofUnquote_eq {l : Literal} {t value r : Text} (h : unquote? t = some (value, r))
    (ht : t = l.inside ++ '"' :: r) : ofUnquote h = l := by
  subst ht
  obtain ⟨rfl, -⟩ := Prod.mk.inj (Option.some.inj ((l.reads r).symm.trans h))
  ext1
  · exact List.append_cancel_right (inside_append_ofUnquote h)
  · rfl

end Literal

inductive Piece where
  | bare (c : Char)
  | literal (l : Literal)

namespace Piece

def text : Piece → Text
  | .bare c => [c]
  | .literal l => l.text

def textOf (ps : List Piece) : Text := ps.flatMap text

@[simp] theorem textOf_nil : textOf [] = [] := rfl

@[simp] theorem textOf_cons (p : Piece) (ps : List Piece) : textOf (p :: ps) = p.text ++ textOf ps := rfl

@[simp] theorem textOf_append (ps qs : List Piece) : textOf (ps ++ qs) = textOf ps ++ textOf qs :=
  List.flatMap_append

def bares (t : Text) : List Piece := t.map bare

@[simp] theorem textOf_bares (t : Text) : textOf (bares t) = t := by
  induction t with
  | nil => rfl
  | cons c t ih => exact congrArg (c :: ·) ih

/-- The pieces as far as they go together into the text; what is left of it is bare. -/
def cover : Text → List Piece → List Piece
  | t, [] => bares t
  | t, p :: ps => if Text.startsWith t p.text then p :: cover (t.drop p.text.length) ps else bares t

@[simp] theorem textOf_cover (ps : List Piece) : ∀ t, textOf (cover t ps) = t := by
  induction ps with
  | nil => exact textOf_bares
  | cons p ps ih =>
      intro t
      rw [cover]
      by_cases hp : Text.startsWith t p.text = true
      · obtain ⟨u, rfl⟩ := List.isPrefixOf_iff_prefix.1 hp
        rw [if_pos hp, textOf_cons, List.drop_left, ih]
      · rw [if_neg hp, textOf_bares]

theorem cover_front (ps : List Piece) : ∀ t, ∃ qs u, qs <+: ps ∧ cover t ps = qs ++ bares u := by
  induction ps with
  | nil => exact fun t => ⟨[], t, List.nil_prefix, rfl⟩
  | cons p ps ih =>
      intro t
      rw [cover]
      split
      · obtain ⟨qs, u, hfront, hcover⟩ := ih (t.drop p.text.length)
        exact ⟨p :: qs, u, List.cons_prefix_cons.2 ⟨rfl, hfront⟩, by rw [hcover]; rfl⟩
      · exact ⟨[], t, List.nil_prefix, rfl⟩

end Piece

open Piece (textOf bares cover)

/-- The pieces of a tag: a quotation mark begins the literal that is read from it. -/
def tagPieces (t : Text) : List Piece :=
  match t with
  | [] => []
  | c :: rest =>
    if c = '"' then
      match h : unquote? rest with
      | none => .bare c :: tagPieces rest
      | some (_, after) => .literal (.ofUnquote h) :: tagPieces after
    else .bare c :: tagPieces rest
termination_by t.length
decreasing_by
  · simp
  · have := Reader.length_unquote? h
    simp only [List.length_cons]
    omega
  · simp

@[simp] theorem textOf_tagPieces (t : Text) : textOf (tagPieces t) = t := by
  fun_induction tagPieces t with
  | case1 => rfl
  | case2 rest _ ih => exact congrArg ('"' :: ·) ih
  | case3 rest value after h ih =>
      rw [Piece.textOf_cons, ih]
      show '"' :: ((Literal.ofUnquote h).inside ++ ['"']) ++ after = '"' :: rest
      rw [List.cons_append, List.append_assoc, List.singleton_append, Literal.inside_append_ofUnquote]
  | case4 c rest _ ih => exact congrArg (c :: ·) ih

/-! ## Inside a tag -/

/-- Neither a quotation mark nor a closing brace stands outside the literals. -/
def Inner (ps : List Piece) : Prop := ∀ c, .bare c ∈ ps → c ≠ '"' ∧ c ≠ '}'

theorem inner_nil : Inner [] := fun _ h => absurd h (by simp)

theorem inner_bares {t : Text} (h : ∀ c ∈ t, c ≠ '"' ∧ c ≠ '}') : Inner (bares t) := by
  intro c hc
  obtain ⟨d, hd, heq⟩ := List.mem_map.1 hc
  exact Piece.bare.inj heq ▸ h d hd

theorem Inner.cons {ps : List Piece} (h : Inner ps) {c : Char} (hc : c ≠ '"' ∧ c ≠ '}') :
    Inner (.bare c :: ps) := by
  intro d hd
  rcases List.mem_cons.1 hd with heq | hd
  · exact Piece.bare.inj heq ▸ hc
  · exact h d hd

theorem inner_literal (l : Literal) : Inner [.literal l] := by
  intro c hc
  cases List.mem_singleton.1 hc

theorem Inner.append {ps qs : List Piece} (hp : Inner ps) (hq : Inner qs) : Inner (ps ++ qs) := by
  intro c hc
  exact (List.mem_append.1 hc).elim (hp c) (hq c)

theorem tagPieces_bares {t : Text} (h : '"' ∉ t) : tagPieces t = bares t := by
  induction t with
  | nil => rw [tagPieces]; rfl
  | cons c t ih =>
      rw [List.mem_cons, not_or] at h
      rw [tagPieces, if_neg (Ne.symm h.1), ih h.2]
      rfl

/-- An inner text has no other pieces than these. -/
theorem tagPieces_append {ps : List Piece} (h : Inner ps) (w : Text) :
    tagPieces (textOf ps ++ w) = ps ++ tagPieces w := by
  induction ps with
  | nil => rfl
  | cons p ps ih =>
      have hps := ih fun c hc => h c (List.mem_cons_of_mem _ hc)
      cases p with
      | bare c =>
          show tagPieces (c :: (textOf ps ++ w)) = _
          rw [tagPieces, if_neg (h c (List.mem_cons_self ..)).1, hps]
          rfl
      | literal l =>
          have htext : textOf (.literal l :: ps) ++ w = '"' :: (l.inside ++ '"' :: (textOf ps ++ w)) := by
            simp [Piece.text, Literal.text]
          rw [htext, tagPieces, if_pos rfl]
          split
          next hnone => rw [l.reads] at hnone; cases hnone
          next value after hsome =>
            obtain ⟨rfl, rfl⟩ := Prod.mk.inj (Option.some.inj ((l.reads _).symm.trans hsome))
            rw [Literal.ofUnquote_eq hsome rfl, hps]
            rfl

/-! ## The pieces of a template -/

/-- The pieces of the text from a cursor up to its end, to a closing tag, or to where reading fails. Those in
the content of a block are the ones that are read on the way to its closing tag. -/
def piecesFrom (c : Cursor) : List Piece :=
  match _hc : c.rest with
  | [] => []
  | ch :: _ =>
    match lead c.rest with
    | .text => .bare ch :: piecesFrom (c.advance 1)
    | .slot =>
      match _h : Reader.slot.run c with
      | .error _ => []
      | .ok (_, next) => tagPieces (c.upto next) ++ piecesFrom next
    | .closing => []
    | .opening =>
      match _ho : Reader.opening.run c, _h : Node.definition c with
      | .ok (_, mid), .ok (_, source, next) =>
        let inner :=
          match source.body with
          | none => []
          | some body => cover body (piecesFrom mid)
        tagPieces (c.upto mid) ++ (inner ++ (bares source.closing ++ piecesFrom next))
      | _, _ => []
termination_by c.rest.length
decreasing_by
  · simp [Cursor.advance, _hc]
  · have := Reader.length_slot _h
    rw [_hc, List.length_cons] at this
    simp only [_hc, List.length_cons]
    omega
  · have := Reader.length_opening _ho
    rw [_hc, List.length_cons] at this
    simp only [_hc, List.length_cons]
    omega
  · have := Node.length_definition _h
    rw [_hc, List.length_cons] at this
    simp only [_hc, List.length_cons]
    omega

def piecesOf (t : Text) : List Piece := piecesFrom (Cursor.start t)

@[simp] theorem piecesFrom_nil (o : Nat) : piecesFrom ⟨o, []⟩ = [] := by
  rw [piecesFrom.eq_def]

theorem piecesFrom_text {c : Cursor} {ch : Char} {rest : Text} (hc : c.rest = ch :: rest)
    (h : lead c.rest = .text) : piecesFrom c = .bare ch :: piecesFrom (c.advance 1) := by
  rw [piecesFrom.eq_def]
  split
  next hnil => rw [hc] at hnil; cases hnil
  next ch' rest' hc' =>
    obtain ⟨rfl, rfl⟩ := List.cons.inj (hc.symm.trans hc')
    simp only [h]

theorem piecesFrom_slot {c next : Cursor} {s : Slot} (h : lead c.rest = .slot)
    (hs : Reader.slot.run c = .ok (s, next)) :
    piecesFrom c = tagPieces (c.upto next) ++ piecesFrom next := by
  obtain ⟨ch, rest, hc⟩ := ne_nil_of_lead (t := c.rest) (by rw [h]; decide)
  rw [piecesFrom.eq_def]
  split
  next hnil => rw [hc] at hnil; cases hnil
  next =>
    simp only [h]
    split
    next e he => rw [hs] at he; cases he
    next s' next' hs' =>
      obtain ⟨rfl, rfl⟩ := Prod.mk.inj (Except.ok.inj (hs.symm.trans hs'))
      rfl

/-- The pieces of a definition are those of its opening tag, of its content and of its closing tag. -/
theorem exists_piecesFrom_opening {c next : Cursor} {d : Definition} {source : DefinitionSource}
    (h : lead c.rest = .opening) (hd : Node.definition c = .ok (d, source, next)) :
    ∃ inner, textOf inner = source.body.getD [] ∧ piecesFrom c =
      tagPieces source.opening ++ (inner ++ (bares source.closing ++ piecesFrom next)) := by
  obtain ⟨ch, rest, hc⟩ := ne_nil_of_lead (t := c.rest) (by rw [h]; decide)
  obtain ⟨o, mid, ho, hopening⟩ := opening_of_definition hd
  rw [piecesFrom.eq_def]
  split
  next hnil => rw [hc] at hnil; cases hnil
  next =>
    simp only [h]
    split
    next o' mid' d' source' next' ho' hd' =>
      obtain ⟨-, rfl, rfl⟩ : d = d' ∧ source = source' ∧ next = next' := by
        simpa using hd.symm.trans hd'
      obtain ⟨-, rfl⟩ := Prod.mk.inj (Except.ok.inj (ho.symm.trans ho'))
      rw [hopening]
      refine ⟨_, ?_, rfl⟩
      cases source.body with
      | none => rfl
      | some body => exact Piece.textOf_cover _ body
    next hno => exact absurd hd (hno o mid d source next ho)

theorem Located.textOf_piecesFrom {c : Cursor} {ns : List Node} (h : Located c ns) :
    textOf (piecesFrom c) = c.rest := by
  induction h with
  | @nil c hc =>
      obtain ⟨o, rest⟩ := c
      obtain rfl : rest = [] := hc
      rw [piecesFrom_nil]
      rfl
  | @text c ch rest ns hc hlead _ ih =>
      rw [piecesFrom_text hc hlead, Piece.textOf_cons, ih, hc]
      simp [Piece.text, Cursor.advance, hc]
  | @slot c next s ns hlead hslot _ ih =>
      rw [piecesFrom_slot hlead hslot, Piece.textOf_append, textOf_tagPieces, ih]
      exact (Reader.advances_slot.reaches hslot).upto_append
  | @define c next d source ns hlead hdef _ ih =>
      obtain ⟨inner, hinner, hpieces⟩ := exists_piecesFrom_opening hlead hdef
      rw [hpieces, (text_of_definition hdef).1, DefinitionSource.text]
      simp [hinner, ih]

/-- The pieces of a template make it up. -/
theorem textOf_piecesOf {t : Text} {ns : List Node} (h : parse t = .ok ns) : textOf (piecesOf t) = t :=
  (located_of_parse h).textOf_piecesFrom

end Stencil
