import Stencil.Proofs.Decimal.Reading
import Stencil.Proofs.Tag.Context

/-! # The grammar of references

A slot that is no expression refers to a name, with arguments in parentheses if there are any. `IsReference`
says which texts do so, one constructor for each form, and so do `IsArgument`, `IsValue` and `Quoted` for their
parts. Before a text that does not go on with it, each part is read as what it stands for; so a reference in
double braces is a slot whatever comes behind it (`IsReference.slotText`). -/
set_option autoImplicit false
namespace Stencil.Reader

variable {α β : Type}

def Spaces (w : Text) : Prop := ∀ c ∈ w, isTagSpace c = true

/-- A letter or an underscore, and then letters, digits and underscores. -/
def IsName (n : Text) : Prop :=
  ∃ c u, n = c :: u ∧ isNameStart c = true ∧ ∀ d ∈ u, isNameChar d = true

def escapes : List (Char × Char) :=
  [('"', '"'), ('\\', '\\'), ('n', '\n'), ('t', '\t'), ('{', '{'), ('}', '}')]

/-- What stands between quotation marks, and the text that it stands for. -/
inductive Quoted : Text → Text → Prop
  | nil : Quoted [] []
  | char {c : Char} {z t : Text} : c ≠ '"' → c ≠ '\\' → Quoted z t → Quoted (c :: z) (c :: t)
  | escape {c d : Char} {z t : Text} : (c, d) ∈ escapes → Quoted z t → Quoted ('\\' :: c :: z) (d :: t)
  | pair {c : Char} {z t : Text} : (∀ d, (c, d) ∉ escapes) → Quoted z t →
      Quoted ('\\' :: c :: z) ('\\' :: c :: t)

inductive IsValue : Text → Value → Prop
  | number {z : Text} {x : Float} : ReadsAs z x → IsValue z (.number x)
  | text {z t : Text} : Quoted z t → IsValue ('"' :: (z ++ ['"'])) (.text t)

inductive IsArgument : Text → Argument → Prop
  | unnamed {z : Text} {v : Value} : IsValue z v → IsArgument z ⟨none, v⟩
  | named {n w w' z : Text} {v : Value} : IsName n → Spaces w → Spaces w' → IsValue z v →
      IsArgument (n ++ (w ++ '=' :: (w' ++ z))) ⟨some n, v⟩

inductive AreArguments : Text → List Argument → Prop
  | last {z : Text} {a : Argument} : IsArgument z a → AreArguments z [a]
  | cons {y w w' z : Text} {a : Argument} {as : List Argument} : IsArgument y a → Spaces w → Spaces w' →
      AreArguments z as → AreArguments (y ++ (w ++ ',' :: (w' ++ z))) (a :: as)

/-- A name, and the arguments that it is called with. -/
inductive IsReference : Text → Text → List Argument → Prop
  | name {n w : Text} : IsName n → Spaces w → IsReference (n ++ w) n []
  | empty {n w w' w'' : Text} : IsName n → Spaces w → Spaces w' → Spaces w'' →
      IsReference (n ++ (w ++ '(' :: (w' ++ ')' :: w''))) n []
  | call {n u w w' w'' z : Text} {as : List Argument} : IsName n → Spaces u → Spaces w → Spaces w' →
      Spaces w'' → AreArguments z as →
      IsReference (n ++ (u ++ '(' :: (w ++ (z ++ (w' ++ ')' :: w''))))) n as

/-! ## Basic readers on given text -/

theorem forall_mem_head? {P : Char → Prop} {c : Char} {r : Text} (h : P c) :
    ∀ d ∈ (c :: r).head?, P d := by
  intro d hd
  obtain rfl : c = d := by simpa using hd
  exact h

theorem forall_mem_head?_append {P : Char → Prop} {w r : Text} (hw : ∀ c ∈ w, P c)
    (hr : ∀ c ∈ r.head?, P c) : ∀ c ∈ (w ++ r).head?, P c := by
  cases w with
  | nil => exact hr
  | cons c w => exact forall_mem_head? (hw c (List.mem_cons_self ..))

theorem takes_takeWhile {p : Char → Bool} {z r : Text} (hz : ∀ c ∈ z, p c = true)
    (hr : ∀ c ∈ r.head?, p c = false) : Takes (takeWhile p) z z r := by
  intro o
  show Except.ok (_, Cursor.advance ⟨o, z ++ r⟩ _) = _
  rw [takeWhile_append_of_head? hz hr, Cursor.advance_append]

theorem takes_skipSpace {z r : Text} (hz : ∀ c ∈ z, isTagSpace c = true)
    (hr : ∀ c ∈ r.head?, isTagSpace c = false) : Takes skipSpace z () r := by
  exact Takes.map (takes_takeWhile hz hr) fun _ => ()

theorem takes_skipBlanks {z r : Text} (hz : ∀ c ∈ z, isLineBlank c = true)
    (hr : ∀ c ∈ r.head?, isLineBlank c = false) : Takes skipBlanks z () r := by
  exact Takes.map (takes_takeWhile hz hr) fun _ => ()

theorem takes_peek_bind {f : Option Char → Reader α} {z r : Text} {a : α}
    (h : Takes (f (z ++ r).head?) z a r) : Takes (peek >>= f) z a r :=
  Takes.bind (y := []) (fun _ => rfl) h

theorem takes_skip {n : Nat} {z : Text} (hz : z.length = n) (r : Text) :
    Takes (skip n) z () r := by
  intro o
  show Except.ok ((), Cursor.advance ⟨o, z ++ r⟩ n) = _
  rw [← hz, Cursor.advance_append]

/-! ## Names -/

theorem isNameChar_of_isNameStart {c : Char} (h : isNameStart c = true) : isNameChar c = true := by
  simp only [isNameStart, isNameChar, Char.isAlphanum, Bool.or_eq_true] at h ⊢
  rcases h with h | h
  · exact .inl (.inl h)
  · exact .inr h

theorem isNameChar_of_isDigit {c : Char} (h : c.isDigit = true) : isNameChar c = true := by
  simp [isNameChar, Char.isAlphanum, h]

theorem IsName.isNameChar {n : Text} (h : IsName n) : ∀ c ∈ n, isNameChar c = true := by
  obtain ⟨c, u, rfl, hc, hu⟩ := h
  intro d hd
  rcases List.mem_cons.1 hd with rfl | hd
  · exact isNameChar_of_isNameStart hc
  · exact hu d hd

/-- A name begins with a letter or an underscore. -/
theorem toNat_of_isNameStart {c : Char} (h : isNameStart c = true) :
    (65 ≤ c.toNat ∧ c.toNat ≤ 90) ∨ (97 ≤ c.toNat ∧ c.toNat ≤ 122) ∨ c.toNat = 95 := by
  change (decide ('A'.val ≤ c.val ∧ c.val ≤ 'Z'.val) ||
    (decide ('a'.val ≤ c.val) && decide (c.val ≤ 'z'.val)) || decide (c = '_')) = true at h
  simp only [Bool.or_eq_true, decide_eq_true_eq, Bool.and_eq_true, UInt32.le_iff_toNat_le] at h
  rcases h with (h | h) | rfl
  · exact .inl h
  · exact .inr (.inl h)
  · exact .inr (.inr rfl)

theorem isNameStart_of_isDigit {c : Char} (h : c.isDigit = true) : isNameStart c = false := by
  have hdigit : 48 ≤ c.toNat ∧ c.toNat ≤ 57 := Char.isDigit_iff_toNat.1 h
  rw [Bool.eq_false_iff]
  intro hn
  have hletter := toNat_of_isNameStart hn
  omega

/-- No character of a name is a space. -/
theorem isNameChar_of_isTagSpace {c : Char} (h : isTagSpace c = true) : isNameChar c = false := by
  simp only [isTagSpace, Bool.or_eq_true, decide_eq_true_eq] at h
  rcases h with ((rfl | rfl) | rfl) | rfl <;> decide

theorem isTagSpace_eq_false {c : Char} (h : isNameChar c = true) : isTagSpace c = false := by
  rw [Bool.eq_false_iff]
  intro hspace
  rw [isNameChar_of_isTagSpace hspace] at h
  cases h

theorem isTagSpace_of_isNameStart {c : Char} (h : isNameStart c = true) : isTagSpace c = false :=
  isTagSpace_eq_false (isNameChar_of_isNameStart h)

theorem spaces_nil : Spaces [] := by simp [Spaces]

theorem Spaces.append {w w' : Text} (h : Spaces w) (h' : Spaces w') : Spaces (w ++ w') := by
  intro c hc
  rcases List.mem_append.1 hc with hc | hc
  · exact h c hc
  · exact h' c hc

theorem Spaces.ne_brace {w : Text} (h : Spaces w) : ∀ c ∈ w, c ≠ '{' := by
  rintro c hc rfl
  exact absurd (h _ hc) (by decide)

theorem Spaces.head?_isNameChar {w r : Text} (hw : Spaces w) (hr : ∀ c ∈ r.head?, isNameChar c = false) :
    ∀ c ∈ (w ++ r).head?, isNameChar c = false :=
  forall_mem_head?_append (fun c hc => isNameChar_of_isTagSpace (hw c hc)) hr

theorem takes_name {n r : Text} (hn : IsName n) (hr : ∀ c ∈ r.head?, isNameChar c = false)
    (expected : List Text) : Takes (name expected) n n r := by
  obtain ⟨c, u, rfl, hc, hu⟩ := id hn
  refine takes_peek_bind ?_
  show Takes (if isNameStart c then _ else _) (c :: u) _ r
  rw [if_pos hc]
  exact takes_takeWhile hn.isNameChar hr

/-! ## Values -/

/-- A character behind a backslash: it is one of the table, or the pair is kept. -/
theorem unescape_eq (c : Char) : (∃ d, (c, d) ∈ escapes ∧ unescape c = [d]) ∨
    (∀ d, (c, d) ∉ escapes) ∧ unescape c = ['\\', c] := by
  have hall : ∀ p ∈ escapes, unescape p.1 = [p.2] := by decide
  by_cases h : ∃ d, (c, d) ∈ escapes
  · obtain ⟨d, hd⟩ := h
    exact .inl ⟨d, hd, hall (c, d) hd⟩
  · refine .inr ⟨not_exists.1 h, ?_⟩
    simp only [escapes, List.mem_cons, Prod.mk.injEq, List.not_mem_nil, or_false, exists_or,
      exists_eq_right, not_or] at h
    simp [unescape, h]

theorem Quoted.unquote? {z t : Text} (h : Quoted z t) (r : Text) :
    unquote? (z ++ '"' :: r) = some (t, r) := by
  induction h with
  | nil => rw [List.nil_append, unquote?_cons (by decide), if_pos rfl]
  | char hquote hslash _ ih =>
      rw [List.cons_append, unquote?_cons hslash, if_neg hquote, ih]
      rfl
  | @escape c d z t hmem _ ih =>
      have hescape : unescape c = [d] := by
        have hall : ∀ p ∈ escapes, unescape p.1 = [p.2] := by decide
        exact hall (c, d) hmem
      simp only [List.cons_append, Reader.unquote?, ih, hescape, Option.map_some, List.nil_append]
  | @pair c z t hnone _ ih =>
      have hescape : unescape c = ['\\', c] := by
        rcases unescape_eq c with ⟨d, hmem, -⟩ | ⟨-, hescape⟩
        · exact absurd hmem (hnone d)
        · exact hescape
      simp only [List.cons_append, Reader.unquote?, ih, hescape, Option.map_some, List.nil_append]

theorem takes_string {z t : Text} (h : Quoted z t) (r : Text) :
    Takes string ('"' :: (z ++ ['"'])) t r := by
  intro o
  have htext : '"' :: (z ++ ['"']) ++ r = '"' :: (z ++ '"' :: r) := by simp
  rw [htext]
  simp only [string, StateT.run, List.tail_cons, h.unquote?]
  rw [← htext, Cursor.skipTo_append]

theorem parts_of_splitNumeral {t whole fraction after : Text}
    (h : Decimal.splitNumeral t = (whole, fraction, after)) :
    t = (whole ++ if fraction = [] then [] else '.' :: fraction) ++ after ∧
      (∀ c ∈ whole, c.isDigit = true) ∧ ∀ c ∈ fraction, c.isDigit = true := by
  have hsplit (u : Text) : u.takeWhile Char.isDigit ++ u.dropWhile Char.isDigit = u :=
    List.takeWhile_append_dropWhile
  have ht := hsplit t
  simp only [Decimal.splitNumeral] at h
  split at h
  next rest hrest =>
    rw [hrest] at ht
    by_cases hnone : rest.takeWhile Char.isDigit = []
    · simp only [if_pos hnone, Prod.mk.injEq] at h
      obtain ⟨rfl, rfl, rfl⟩ := h
      exact ⟨by simp [hrest, ht], eq_true_of_mem_takeWhile, by simp⟩
    · simp only [if_neg hnone, Prod.mk.injEq] at h
      obtain ⟨rfl, rfl, rfl⟩ := h
      refine ⟨?_, eq_true_of_mem_takeWhile, eq_true_of_mem_takeWhile⟩
      rw [if_neg hnone, List.append_assoc, List.cons_append, hsplit, ht]
  next =>
    simp only [Prod.mk.injEq] at h
    obtain ⟨rfl, rfl, rfl⟩ := h
    exact ⟨by simp [ht], eq_true_of_mem_takeWhile, by simp⟩

def EndsNumeral (r : Text) : Prop := ∀ c ∈ r.head?, c.isDigit = false ∧ c ≠ '.'

theorem takes_numeral {whole fraction r : Text} (hne : whole ≠ []) (hwhole : ∀ c ∈ whole, c.isDigit = true)
    (hfraction : ∀ c ∈ fraction, c.isDigit = true) (hr : EndsNumeral r) (negative : Bool) :
    Takes (numeral negative) (whole ++ if fraction = [] then [] else '.' :: fraction)
      (Decimal.ofNumeral negative whole fraction) r := by
  have hsplit : Decimal.splitNumeral ((whole ++ if fraction = [] then [] else '.' :: fraction) ++ r) =
      (whole, fraction, r) := by
    by_cases hf : fraction = []
    · rw [if_pos hf, List.append_nil, hf]
      refine splitNumeral_whole hwhole (fun c hc => (hr c hc).1) fun hpoint => ?_
      exact absurd rfl (hr '.' hpoint).2
    · rw [if_neg hf, List.append_assoc, List.cons_append]
      exact splitNumeral_fraction hwhole hfraction hf fun c hc => (hr c hc).1
  obtain ⟨c, whole, rfl⟩ := List.exists_cons_of_ne_nil hne
  intro o
  simp only [numeral, StateT.run, hsplit, Cursor.skipTo_append]

theorem ReadsAs.exists_cons {z : Text} {x : Float} (h : ReadsAs z x) :
    ∃ c u, z = c :: u ∧ (c = '-' ∨ c.isDigit = true) := by
  obtain ⟨negative, whole, fraction, hne, hwhole, -, rfl, -⟩ := h
  obtain ⟨c, u, rfl⟩ := List.exists_cons_of_ne_nil hne
  cases negative with
  | true => exact ⟨'-', _, rfl, .inl rfl⟩
  | false => exact ⟨c, _, rfl, .inr (hwhole c (List.mem_cons_self ..))⟩

theorem takes_number {z r : Text} {x : Float} (hz : ReadsAs z x) (hr : EndsNumeral r) :
    Takes number z x r := by
  obtain ⟨negative, whole, fraction, hne, hwhole, hfraction, rfl, rfl⟩ := hz
  have hnumeral := takes_numeral hne hwhole hfraction hr negative
  cases negative with
  | true => exact Takes.bind (y := ['-']) (takes_eat '-' _) hnumeral
  | false =>
      obtain ⟨c, u, rfl⟩ := List.exists_cons_of_ne_nil hne
      refine Takes.bind (y := []) (takes_eat_of_ne ?_) hnumeral
      intro heq
      obtain rfl : c = '-' := by simpa using heq
      exact absurd (hwhole '-' (List.mem_cons_self ..)) (by decide)

theorem takes_value {z : Text} {v : Value} (h : IsValue z v) {r : Text} (hr : EndsNumeral r)
    (also : List Text) : Takes (value also) z v r := by
  cases h with
  | text hquoted => exact takes_peek_bind ((takes_string hquoted r).map Value.text)
  | number hreads =>
      have hnumber := takes_number hreads hr
      obtain ⟨c, u, rfl, hc⟩ := ReadsAs.exists_cons hreads
      have hquote : c ≠ '"' := by
        rintro rfl
        exact absurd hc (by decide)
      refine takes_peek_bind ?_
      show Takes (if c = '"' then _ else _) (c :: u) _ r
      rw [if_neg hquote, if_pos hc]
      exact hnumber.map Value.number

/-! ## Arguments -/

/-- The first character of a value. -/
theorem IsValue.exists_cons {z : Text} {v : Value} (h : IsValue z v) : ∃ c u, z = c :: u ∧
    isNameStart c = false ∧ isTagSpace c = false ∧ c ≠ ')' := by
  cases h with
  | text _ => exact ⟨'"', _, rfl, by decide, by decide, by decide⟩
  | number hreads =>
      obtain ⟨c, u, rfl, hc⟩ := ReadsAs.exists_cons hreads
      refine ⟨c, u, rfl, ?_⟩
      rcases hc with rfl | hc
      · exact ⟨by decide, by decide, by decide⟩
      · refine ⟨isNameStart_of_isDigit hc, isTagSpace_eq_false (isNameChar_of_isDigit hc), ?_⟩
        rintro rfl
        exact absurd hc (by decide)

theorem IsArgument.exists_cons {z : Text} {a : Argument} (h : IsArgument z a) :
    ∃ c u, z = c :: u ∧ isTagSpace c = false ∧ c ≠ ')' := by
  cases h with
  | unnamed hv =>
      obtain ⟨c, u, hcu, -, hspace, hparen⟩ := hv.exists_cons
      exact ⟨c, u, hcu, hspace, hparen⟩
  | named hn _ _ _ =>
      obtain ⟨c, u, rfl, hc, -⟩ := hn
      refine ⟨c, _, List.cons_append .., isTagSpace_of_isNameStart hc, ?_⟩
      rintro rfl
      exact absurd hc (by decide)

theorem AreArguments.exists_cons {z : Text} {as : List Argument} (h : AreArguments z as) :
    ∃ c u, z = c :: u ∧ isTagSpace c = false ∧ c ≠ ')' := by
  cases h with
  | last ha => exact ha.exists_cons
  | cons ha _ _ _ =>
      obtain ⟨c, u, rfl, hc⟩ := ha.exists_cons
      exact ⟨c, _, List.cons_append .., hc⟩

theorem takes_argument {z : Text} {a : Argument} (h : IsArgument z a) {r : Text} (hr : EndsNumeral r) :
    Takes argument z a r := by
  cases h with
  | @unnamed _ v hv =>
      have hunnamed := (takes_value hv hr ["identifier".toList]).map fun w => Argument.mk none w
      obtain ⟨c, u, rfl, hstart, -⟩ := hv.exists_cons
      refine takes_peek_bind ?_
      show Takes (if isNameStart c then _ else _) (c :: u) _ r
      rwa [if_neg (by simp [hstart])]
  | @named n w w' y v hn hw hw' hv =>
      obtain ⟨c, u, hy, -, hspace, -⟩ := hv.exists_cons
      have hvalue : ∀ d ∈ (y ++ r).head?, isTagSpace d = false := by
        rw [hy]
        exact forall_mem_head? hspace
      obtain ⟨c, u, hcu, hc, -⟩ := id hn
      refine takes_peek_bind ?_
      have hhead : ((n ++ (w ++ '=' :: (w' ++ y))) ++ r).head? = some c := by rw [hcu]; rfl
      rw [hhead]
      show Takes (if isNameStart c then _ else _) _ _ r
      rw [if_pos hc]
      refine (takes_takeWhile hn.isNameChar ?_).bind ?_
      · rw [List.append_assoc]
        exact hw.head?_isNameChar (forall_mem_head? (by decide))
      refine (takes_skipSpace hw (forall_mem_head? (by decide))).bind ?_
      refine Takes.bind (y := ['=']) (takes_demand '=' _ _) ?_
      refine (takes_skipSpace hw' hvalue).bind ?_
      exact (takes_value hv hr []).map fun w => Argument.mk (some n) w

theorem Spaces.endsNumeral {w r : Text} (hw : Spaces w) (hr : EndsNumeral r) : EndsNumeral (w ++ r) := by
  refine forall_mem_head?_append (fun c hc => ?_) hr
  have hspace := hw c hc
  simp only [isTagSpace, Bool.or_eq_true, decide_eq_true_eq] at hspace
  rcases hspace with ((rfl | rfl) | rfl) | rfl <;> decide

theorem takes_spacedArgument {y w z w' : Text} {a : Argument} (h : IsArgument z a) (hw : Spaces w)
    (hw' : Spaces w') (hy : y = w ++ (z ++ w')) {r : Text} (hr : EndsNumeral r)
    (hrs : ∀ c ∈ r.head?, isTagSpace c = false) : Takes spacedArgument y a r := by
  subst hy
  have hfront : ∀ c ∈ (z ++ w' ++ r).head?, isTagSpace c = false := by
    obtain ⟨c, u, rfl, hspace, -⟩ := h.exists_cons
    exact forall_mem_head? hspace
  refine (takes_skipSpace hw hfront).bind ((takes_argument h (hw'.endsNumeral hr)).bind ?_)
  exact (takes_skipSpace hw' hrs).map fun _ => a

theorem takes_argumentsFrom {z w' r : Text} {as : List Argument} (h : AreArguments z as)
    (hw' : Spaces w') : ∀ {w : Text}, Spaces w →
    Takes argumentsFrom (w ++ (z ++ (w' ++ [')']))) as r := by
  induction h with
  | @last z a ha =>
      intro w hw
      have hlast := takes_argumentsFrom_last (takes_spacedArgument ha hw hw' rfl (r := ')' :: r)
        (forall_mem_head? (by decide)) (forall_mem_head? (by decide)))
      simpa using hlast
  | @cons y u u' z a as ha hu hu' _ ih =>
      intro w hw
      have hcons := takes_argumentsFrom_cons (takes_spacedArgument ha hw hu rfl
        (forall_mem_head? (by decide)) (forall_mem_head? (by decide))) (ih hu')
      simpa using hcons

theorem takes_arguments_empty {w : Text} (hw : Spaces w) (r : Text) :
    Takes arguments ('(' :: (w ++ [')'])) [] r := by
  refine Takes.bind (y := ['(']) (takes_skip rfl _) ?_
  refine (takes_skipSpace hw (forall_mem_head? (by decide))).bind ?_
  exact (takes_eat ')' r).bind (z := []) (takes_pure [] r)

theorem takes_arguments {w z w' : Text} {as : List Argument} (h : AreArguments z as) (hw : Spaces w)
    (hw' : Spaces w') (r : Text) : Takes arguments ('(' :: (w ++ (z ++ (w' ++ [')'])))) as r := by
  have hlater := takes_argumentsFrom (r := r) h hw' spaces_nil
  obtain ⟨c, u, rfl, hspace, hparen⟩ := h.exists_cons
  refine Takes.bind (y := ['(']) (takes_skip rfl _) ?_
  refine (takes_skipSpace hw (forall_mem_head? hspace)).bind ?_
  exact Takes.bind (y := []) (takes_eat_of_ne (by simpa using hparen)) hlater

/-! ## References -/

theorem takes_closeSlot (expected : List Text) (r : Text) :
    Takes (closeSlot expected) slotEnd () r := by
  intro o
  have hstart : Text.startsWith (slotEnd ++ r) slotEnd = true := by
    simp [Text.startsWith, slotEnd]
  simp only [closeSlot, StateT.run, hstart, if_true]
  exact congrArg (fun c => Except.ok ((), c)) (Cursor.advance_append o slotEnd r)

/-- A name with what stands in parentheses behind it. -/
theorem takes_reference_call {n u y w : Text} {as : List Argument} (hn : IsName n) (hu : Spaces u)
    (hw : Spaces w) (hy : ∀ r, Takes arguments ('(' :: y) as r) (raw : Bool) (r : Text) :
    Takes (reference raw) (n ++ (u ++ ('(' :: y ++ (w ++ slotEnd))))
      { name := n, args := as, raw, expr := none } r := by
  refine (takes_name hn ?_ _).bind ?_
  · rw [List.append_assoc]
    exact hu.head?_isNameChar (forall_mem_head? (by decide))
  refine (takes_skipSpace hu (forall_mem_head? (by decide))).bind ?_
  refine takes_peek_bind ?_
  show Takes (if some '(' = some '(' then _ else _) _ _ r
  rw [if_pos rfl]
  refine (hy _).bind ((takes_skipSpace hw (forall_mem_head? (by decide))).bind ?_)
  exact Takes.bind (y := []) (takes_pure as _) ((takes_closeSlot _ r).map fun _ => _)

theorem takes_reference {z n : Text} {as : List Argument} (h : IsReference z n as) (raw : Bool) (r : Text) :
    Takes (reference raw) (z ++ slotEnd) { name := n, args := as, raw, expr := none } r := by
  cases h with
  | @name _ w hn hw =>
      rw [List.append_assoc]
      refine (takes_name hn ?_ _).bind ?_
      · rw [List.append_assoc]
        exact hw.head?_isNameChar (forall_mem_head? (by decide))
      refine (takes_skipSpace hw (forall_mem_head? (by decide))).bind ?_
      refine takes_peek_bind ?_
      show Takes (if some '}' = some '(' then _ else _) _ _ r
      rw [if_neg (by decide)]
      exact Takes.bind (y := []) (takes_pure [] _) ((takes_closeSlot _ r).map fun _ => _)
  | @empty _ u w w' hn hu hw hw' =>
      have hcall := takes_reference_call hn hu hw' (takes_arguments_empty hw) raw r
      simpa using hcall
  | @call _ u w w' w'' y _ hn hu hw hw' hw'' hy =>
      have hcall := takes_reference_call hn hu hw'' (takes_arguments hy hw hw') raw r
      simpa using hcall

theorem beginsExpression_name {n w t : Text} {c : Char} (hn : IsName n) (hw : Spaces w)
    (hc : isNameChar c = false) (hspace : isTagSpace c = false) :
    beginsExpression (n ++ (w ++ c :: t)) = isOperator c := by
  obtain ⟨d, u, rfl, hd, hu⟩ := id hn
  have hnames : (d :: (u ++ (w ++ c :: t))).dropWhile isNameChar = w ++ c :: t :=
    dropWhile_append_of_head? hn.isNameChar (hw.head?_isNameChar (forall_mem_head? hc))
  have hspaces : (w ++ c :: t).dropWhile isTagSpace = c :: t :=
    dropWhile_append_of_head? hw (forall_mem_head? hspace)
  unfold beginsExpression
  simp only [List.cons_append, if_pos hd, hnames, hspaces]

theorem IsReference.beginsExpression {z n : Text} {as : List Argument} (h : IsReference z n as) (r : Text) :
    beginsExpression (z ++ (slotEnd ++ r)) = false := by
  cases h with
  | name hn hw =>
      rw [List.append_assoc]
      exact beginsExpression_name hn hw (by decide) (by decide)
  | empty hn hu _ _ =>
      rw [List.append_assoc, List.append_assoc]
      exact beginsExpression_name hn hu (by decide) (by decide)
  | call hn hu _ _ _ _ =>
      rw [List.append_assoc, List.append_assoc]
      exact beginsExpression_name hn hu (by decide) (by decide)

theorem IsReference.exists_cons {z n : Text} {as : List Argument} (h : IsReference z n as) :
    ∃ c u, z = c :: u ∧ isNameStart c = true := by
  cases h with
  | name hn _ => obtain ⟨c, u, rfl, hc, -⟩ := hn; exact ⟨c, _, rfl, hc⟩
  | empty hn _ _ _ => obtain ⟨c, u, rfl, hc, -⟩ := hn; exact ⟨c, _, rfl, hc⟩
  | call hn _ _ _ _ _ => obtain ⟨c, u, rfl, hc, -⟩ := hn; exact ⟨c, _, rfl, hc⟩

end Stencil.Reader

namespace Stencil

open Reader (Spaces slotInside slotEnd Takes IsReference)

/-! ## Slots -/

/-- The inside of a slot behind its braces, with an at sign or without, and spaces before both. -/
theorem slotText_of_inside {w w' inside : Text} {s : Slot} {c : Char} {u : Text} (hw : Spaces w)
    (hw' : Spaces w') (hfront : inside = c :: u) (hbrace : c ≠ '{') (hat : c ≠ '@')
    (hspace : isTagSpace c = false) (h : Takes (slotInside s.raw) inside s []) :
    SlotText ('{' :: '{' :: (w ++ ((if s.raw then ['@'] else []) ++ (w' ++ inside)))) s := by
  have hhead : ∀ d ∈ (inside ++ []).head?, isTagSpace d = false := by
    rw [hfront]
    exact Reader.forall_mem_head? hspace
  have hslot : Takes Reader.slot
      ('{' :: '{' :: (w ++ ((if s.raw then ['@'] else []) ++ (w' ++ inside)))) s [] := by
    refine Takes.bind (y := ['{', '{']) (Reader.takes_skip rfl _) ?_
    cases hraw : s.raw with
    | true =>
        rw [hraw] at h
        refine (Reader.takes_skipSpace hw (Reader.forall_mem_head? (by decide))).bind ?_
        refine Takes.bind (y := ['@']) (Reader.takes_eat '@' _) ?_
        exact (Reader.takes_skipSpace hw' hhead).bind h
    | false =>
        rw [hraw] at h
        show Takes Reader.slotTail (w ++ (w' ++ inside)) s []
        rw [← List.append_assoc]
        refine (Reader.takes_skipSpace (hw.append hw') hhead).bind ?_
        refine Takes.bind (y := []) (Reader.takes_eat_of_ne (by simpa [hfront] using hat)) ?_
        exact Takes.bind (y := []) (Reader.takes_skipSpace (by simp) hhead) h
  have hlead : lead ('{' :: '{' :: (w ++ ((if s.raw then ['@'] else []) ++ (w' ++ inside))) ++ []) =
      .slot := by
    refine lead_slot (by simp [hfront]) (fun hopen => ?_) []
    refine Reader.forall_mem_head?_append (P := (· ≠ '{')) hw.ne_brace ?_ '{' hopen rfl
    cases s.raw with
    | true => exact Reader.forall_mem_head? (by decide)
    | false =>
        show ∀ d ∈ (w' ++ inside).head?, d ≠ '{'
        refine Reader.forall_mem_head?_append hw'.ne_brace ?_
        rw [hfront]
        exact Reader.forall_mem_head? hbrace
  have htext := (slotText_of_run hlead (hslot 0)).1
  rwa [Cursor.upto_append] at htext

/-- A reference in double braces is a slot. -/
theorem Reader.IsReference.slotText {z n w w' : Text} {as : List Argument} (h : IsReference z n as)
    (hw : Spaces w) (hw' : Spaces w') (raw : Bool) :
    SlotText ('{' :: '{' :: (w ++ ((if raw then ['@'] else []) ++ (w' ++ (z ++ slotEnd)))))
      { name := n, args := as, raw, expr := none } := by
  obtain ⟨c, u, hcu, hc⟩ := h.exists_cons
  refine slotText_of_inside (s := { name := n, args := as, raw, expr := none }) hw hw'
    (hcu ▸ List.cons_append ..) ?_ ?_ (Reader.isTagSpace_of_isNameStart hc) fun o => ?_
  · rintro rfl; exact absurd hc (by decide)
  · rintro rfl; exact absurd hc (by decide)
  · have hbegins := h.beginsExpression []
    rw [List.append_nil] at hbegins
    rw [Reader.run_slotInside, List.append_nil, if_neg (by simp [hbegins])]
    simpa using Reader.takes_reference h raw [] o

end Stencil
