import Mathlib.Data.List.SplitBy
import Stencil.Proofs.Tag.Errors

/-! # Content that is captured whole

Content in which braces come in pairs holds slots only. If one of them is malformed then it is malformed
also before a closing tag, since no closing tag ends a slot (`exists_slot_error`), and the scan breaks off
there (`exists_scan_error`). So the definition is closed by the first closing tag that the text shows, which
is the one behind the content (`parse_captured`). -/
set_option autoImplicit false
namespace Stencil

open Reader (IsName slotEnd)

def areBraces (c d : Char) : Bool := c = '{' && d = '{'

/-- Each run of braces, with no brace before it and none behind it, has two. -/
def BracesInPairs (t : Text) : Prop := ∀ run ∈ t.splitBy areBraces, '{' ∈ run → run.length = 2

/-- No slash comes behind a brace and blanks. -/
def NoClosing (t : Text) : Prop :=
  ∀ u ∈ t.tails, u.head? = some '{' → (u.tail.dropWhile isLineBlank).head? ≠ some '/'

instance : DecidablePred BracesInPairs := fun t =>
  inferInstanceAs (Decidable (∀ run ∈ t.splitBy areBraces, '{' ∈ run → run.length = 2))

instance : DecidablePred NoClosing := fun t =>
  inferInstanceAs (Decidable (∀ u ∈ t.tails, _ → _))

def closingTagFor (name : Text) : Text := '{' :: '/' :: name ++ ['}']

/-! ## Runs of braces -/

theorem areBraces_eq_false {s t : Text} (h : s.getLast? ≠ some '{' ∨ t.head? ≠ some '{') :
    ∀ c ∈ s.getLast?, ∀ d ∈ t.head?, areBraces c d = false := by
  intro c hc d hd
  rw [hc, hd] at h
  simpa [areBraces, imp_iff_not_or] using h

theorem BracesInPairs.of_append {p t : Text} (h : BracesInPairs (p ++ t)) (hp : p.getLast? ≠ some '{') :
    BracesInPairs t := by
  intro run hrun
  refine h run ?_
  rw [List.splitBy_append (areBraces_eq_false (.inl hp))]
  exact List.mem_append_right _ hrun

theorem exists_run_of_braces (t : Text) :
    ∃ k s, '{' :: t = List.replicate k '{' ++ s ∧ k ≠ 0 ∧ s.head? ≠ some '{' := by
  have hall : ∀ c ∈ ('{' :: t).takeWhile (· = '{'), c = '{' := fun c hc => by
    simpa using Reader.eq_true_of_mem_takeWhile c hc
  refine ⟨(('{' :: t).takeWhile (· = '{')).length, ('{' :: t).dropWhile (· = '{'), ?_, by simp, ?_⟩
  · rw [← List.eq_replicate_of_mem hall, List.takeWhile_append_dropWhile]
  · intro hhead
    simpa using Reader.head?_dropWhile_eq_false (· = '{') ('{' :: t) '{' hhead

theorem BracesInPairs.exists_pair {t : Text} (h : BracesInPairs ('{' :: t)) :
    ∃ s, t = '{' :: s ∧ s.head? ≠ some '{' := by
  obtain ⟨k, s, ht, hk, hs⟩ := exists_run_of_braces t
  have hrun : (List.replicate k '{').splitBy areBraces = [List.replicate k '{'] :=
    List.splitBy_of_isChain (by simpa using hk) (List.isChain_replicate_of_rel _ (by decide))
  have hmem : List.replicate k '{' ∈ ('{' :: t).splitBy areBraces := by
    rw [ht, List.splitBy_append (areBraces_eq_false (.inr hs)), hrun]
    exact List.mem_append_left _ (List.mem_singleton_self _)
  have htwo := h _ hmem (List.mem_replicate.2 ⟨hk, rfl⟩)
  rw [List.length_replicate] at htwo
  subst htwo
  exact ⟨s, (List.cons.inj ht).2, hs⟩

theorem lead_pair {s : Text} (hs : s.head? ≠ some '{') : lead ('{' :: '{' :: s) = .slot := by
  cases s with
  | nil => rfl
  | cons c s =>
      have hlead := lead_slot (List.cons_ne_nil c s) hs []
      rwa [List.append_nil] at hlead

/-- Only slots begin with a brace. -/
theorem BracesInPairs.lead_eq {t : Text} (h : BracesInPairs ('{' :: t)) : lead ('{' :: t) = .slot := by
  obtain ⟨s, rfl, hs⟩ := h.exists_pair
  exact lead_pair hs

/-! ## Malformed slots before a closing tag -/

theorem not_mem_closing {name : Text} (hn : IsName name) : '}' ∉ '{' :: '/' :: name := by
  have hname : '}' ∉ name := fun h => absurd (hn.isNameChar '}' h) (by decide)
  simp [hname]

/-- A slot is not ended by a closing tag. -/
theorem exists_of_slot_before {name t y r : Text} (hn : IsName name)
    (h : t ++ closingTagFor name = y ++ (slotEnd ++ r)) : ∃ v, t = y ++ (slotEnd ++ v) := by
  have hbrace := not_mem_closing hn
  have hall : (t ++ '{' :: '/' :: name) ++ ['}'] = (y ++ ['}']) ++ '}' :: r := by
    simpa [closingTagFor, slotEnd] using h
  rcases List.eq_nil_or_concat r with rfl | ⟨r, d, rfl⟩
  · -- the brace before the last one would be in the name
    have hinit := List.append_cancel_right hall
    have hlast : ('{' :: '/' :: name).getLast? = some '}' := by
      rw [← List.getLast?_append_of_ne_nil t (List.cons_ne_nil _ _), hinit, List.getLast?_concat]
    exact absurd (List.mem_of_getLast? hlast) hbrace
  · have hinit : t ++ '{' :: '/' :: name = (y ++ ['}']) ++ '}' :: r := by
      rw [List.concat_eq_append, ← List.cons_append, ← List.append_assoc] at hall
      exact (List.append_inj' hall rfl).1
    obtain ⟨v, hv, -⟩ := exists_of_append_brace hbrace hinit.symm
    exact ⟨v, by rw [hv]; simp [slotEnd]⟩

theorem exists_slot_error {name t : Text} (hn : IsName name) {o : Nat} {e : SyntaxError}
    (h : Reader.slot.run ⟨o, t⟩ = .error e) (p : Nat) :
    ∃ f, Reader.slot.run ⟨p, t ++ closingTagFor name⟩ = .error f := by
  cases hrun : Reader.slot.run ⟨p, t ++ closingTagFor name⟩ with
  | error f => exact ⟨f, rfl⟩
  | ok r =>
      obtain ⟨s, next⟩ := r
      obtain ⟨y, hy⟩ := Reader.finishes_slot.finishes hrun
      obtain ⟨z, hz, -, htakes⟩ := Reader.closed_slot.takes hrun
      obtain rfl : z = y ++ slotEnd :=
        List.append_cancel_right ((hz.symm.trans hy).trans (List.append_assoc ..).symm)
      obtain ⟨v, rfl⟩ := exists_of_slot_before hn hy
      have hsame := htakes v o
      rw [List.append_assoc, h] at hsame
      cases hsame

/-- Two braces at the end of the content make three with the closing tag, and leave a slot that has none. -/
theorem exists_scan_error_pair {name : Text} (hn : IsName name) (opened : Option Text) (p : Nat) :
    ∃ f, scan opened ⟨p, '{' :: '{' :: closingTagFor name⟩ = .error (.syntactic f) := by
  obtain ⟨f, hf⟩ := exists_slot_error (t := ['{']) hn (o := 0) rfl (p + Char.utf8Size '{')
  refine ⟨f, ?_⟩
  rw [scan_text (c := ⟨p, '{' :: '{' :: closingTagFor name⟩) rfl rfl]
  exact scan_slot_error (c := ⟨p + Char.utf8Size '{', '{' :: closingTagFor name⟩) rfl hf

/-- Where the content by itself is no template, the scan for its closing tag breaks off. By induction on the
length of the content. -/
theorem exists_scan_error {name : Text} (hn : IsName name) (opened : Option Text) : ∀ (m : Nat) {t : Text}
    {o : Nat} {e : Error}, t.length ≤ m → BracesInPairs t → scan none ⟨o, t⟩ = .error e → ∀ p,
    ∃ f, scan opened ⟨p, t ++ closingTagFor name⟩ = .error (.syntactic f) := by
  intro m
  induction m with
  | zero =>
      intro t o e hm _ h p
      obtain rfl : t = [] := List.length_eq_zero_iff.1 (Nat.le_zero.1 hm)
      rw [scan_nil] at h
      cases h
  | succ m ih =>
      intro t o e hm hpairs h p
      cases t with
      | nil =>
          rw [scan_nil] at h
          cases h
      | cons ch t =>
          by_cases hch : ch = '{'
          · subst hch
            have hlead : lead ('{' :: t) = .slot := hpairs.lead_eq
            cases hslot : Reader.slot.run ⟨o, '{' :: t⟩ with
            | error g =>
                obtain ⟨s, rfl, hs⟩ := hpairs.exists_pair
                cases s with
                | nil => exact exists_scan_error_pair hn opened p
                | cons d s =>
                    obtain ⟨f, hf⟩ := exists_slot_error hn hslot p
                    exact ⟨f, scan_slot_error (lead_slot (List.cons_ne_nil d s) hs _) hf⟩
            | ok r =>
                obtain ⟨s, next⟩ := r
                obtain ⟨hz, hrest⟩ := slotText_of_run (c := ⟨o, '{' :: t⟩) hlead hslot
                have hlength := Reader.length_slot hslot
                rw [scan_slot (c := ⟨o, '{' :: t⟩) hlead hslot] at h
                have hbehind : BracesInPairs next.rest := by
                  rw [show '{' :: t = _ from hrest] at hpairs
                  exact hpairs.of_append hz.getLast?_ne
                have hnext := ih (by simp at hm hlength; omega) hbehind h
                rw [show '{' :: t = _ from hrest, List.append_assoc,
                  scan_slot (hz.1 _) (hz.2 _ p)]
                exact hnext _
          · rw [scan_text (c := ⟨o, ch :: t⟩) rfl (lead_of_ne hch t)] at h
            have hbehind : BracesInPairs t := BracesInPairs.of_append (p := [ch]) hpairs (by simpa using hch)
            rw [List.cons_append, scan_text (c := ⟨p, ch :: (t ++ closingTagFor name)⟩) rfl (lead_of_ne hch _)]
            exact ih (by simpa using hm) hbehind h _

/-! ## The closing tag -/

theorem NoClosing.of_cons {c : Char} {t : Text} (h : NoClosing (c :: t)) : NoClosing t :=
  fun u hu => h u (List.mem_cons_of_mem _ hu)

theorem closingTag?_closingTagFor {name : Text} (hn : IsName name) :
    closingTag? name (closingTagFor name) = some 0 := by
  have hfront : (name ++ ['}']).dropWhile isLineBlank = name ++ ['}'] := by
    obtain ⟨c, u, rfl, -, -⟩ := id hn
    rw [List.cons_append, List.dropWhile_cons_of_neg (by simpa using hn.forall_head? ['}'] c rfl)]
  have hstart : Text.startsWith (name ++ ['}']) name = true :=
    List.isPrefixOf_iff_prefix.2 (List.prefix_append ..)
  have hslash : ('/' :: (name ++ ['}'])).dropWhile isLineBlank = '/' :: (name ++ ['}']) :=
    List.dropWhile_cons_of_neg (by decide)
  simp only [closingTagFor, List.cons_append, closingTag?, hslash, hfront, hstart, if_true, List.drop_left]
  rfl

theorem closingTag?_eq_none {name c : Text} {ch : Char} {t : Text} (h : NoClosing (ch :: t)) :
    closingTag? name (ch :: (t ++ '{' :: c)) = none := by
  rw [Option.eq_none_iff_forall_ne_some]
  intro after hafter
  obtain ⟨u, v, w, r, hu, -, -, htag, -⟩ := parts_of_closingTag? hafter
  obtain ⟨rfl, ht⟩ := List.cons.inj htag
  rcases List.append_eq_append_iff.1 ht with ⟨a, rfl, ha⟩ | ⟨a, rfl, ha⟩
  · -- the blanks would go over the brace of the closing tag
    cases a with
    | nil => exact absurd (List.cons.inj ha).1 (by decide)
    | cons d a =>
        obtain ⟨rfl, -⟩ := List.cons.inj ha
        exact absurd (hu '{' (by simp)) (by decide)
  · cases a with
    | nil => exact absurd (List.cons.inj ha).1 (by decide)
    | cons d a =>
        obtain ⟨rfl, -⟩ := List.cons.inj ha
        refine absurd ?_ (h _ ((List.mem_tails _ _).2 List.suffix_rfl) rfl)
        rw [List.tail_cons, List.dropWhile_append_of_pos hu]
        rfl

theorem findClosing?_append {name : Text} (hn : IsName name) {t : Text} (h : NoClosing t) :
    findClosing? name (t ++ closingTagFor name) = some ⟨(closingTagFor name).length, 0⟩ := by
  induction t with
  | nil =>
      show findClosing? name ('{' :: ('/' :: name ++ ['}'])) = _
      have htag : closingTag? name ('{' :: ('/' :: name ++ ['}'])) = some 0 := closingTag?_closingTagFor hn
      rw [findClosing?, htag]
      rfl
  | cons ch t ih =>
      have htag : closingTag? name (ch :: (t ++ closingTagFor name)) = none := closingTag?_eq_none h
      rw [List.cons_append, findClosing?, htag]
      exact ih h.of_cons

/-! ## The opening tag -/

def openingTagFor (name : Text) : Text := '{' :: name ++ ['}']

theorem openingText_openingTagFor {name : Text} (hn : IsName name) :
    OpeningText (openingTagFor name) { name, raw := false, form := .block {} } := by
  obtain ⟨c, u, hcu, hc, -⟩ := id hn
  have hblank : ∀ r : Text, ∀ d ∈ (name ++ r).head?, isLineBlank d = false := fun r => hn.forall_head? r
  constructor
  · intro w
    have hbrace : c ≠ '{' := by
      rintro rfl
      exact absurd hc (by decide)
    have hslash : c ≠ '/' := by
      rintro rfl
      exact absurd hc (by decide)
    have hdrop : (c :: (u ++ '}' :: w)).dropWhile isLineBlank = c :: (u ++ '}' :: w) :=
      List.dropWhile_cons_of_neg (by simpa using hblank [] c (by simp [hcu]))
    have htext : openingTagFor name ++ w = '{' :: c :: (u ++ '}' :: w) := by simp [openingTagFor, hcu]
    rw [htext, lead_brace, if_neg (by simp [hbrace]), if_neg (by simpa using hbrace), hdrop]
    simp only [List.head?_cons, leadBefore, if_neg hslash, Reader.isNameChar_of_isNameStart hc,
      Bool.true_or, if_true]
  · intro w
    have hat : (name ++ (['}'] ++ w)).head? ≠ some '@' := by
      rw [hcu]
      intro heq
      obtain rfl : c = '@' := by simpa using heq
      exact absurd hc (by decide)
    have hbrace : ∀ r : Text, ∀ d ∈ ('}' :: r).head?, isNameChar d = false ∧ isTagSpace d = false :=
      fun r => Reader.forall_mem_head? (by decide)
    have hform : Reader.Takes Reader.form ['}'] (.block {}) w :=
      Reader.takes_peek_bind ((Reader.takes_skip rfl w).map fun _ => Form.block {})
    show Reader.Takes _ (['{'] ++ ([] ++ ([] ++ ([] ++ (name ++ ([] ++ ['}'])))))) _ w
    refine .bind (Reader.takes_skip rfl _) (.bind (Reader.takes_skipBlanks (by simp) ?_)
      (.bind (Reader.takes_eat_of_ne (by simpa using hat)) (.bind (Reader.takes_skipBlanks (by simp) ?_)
        (.bind (Reader.takes_name hn (fun d hd => (hbrace w d hd).1) _)
          (.bind (Reader.takes_skipSpace (by simp) fun d hd => (hbrace w d hd).2)
            (hform.map fun form => { name, raw := false, form : Opening }))))))
    · simpa using hblank ('}' :: w)
    · simpa using hblank ('}' :: w)

/-- A block at the end of a text whose content is closed by the first closing tag that the text shows. -/
theorem definition_of_taken {opening content closing : Text} {o : Opening} {ps : Params} {e : SyntaxError}
    (ho : OpeningText opening o) (hform : o.form = .block ps)
    (hscan : scan (some o.name) ⟨Text.size opening, content ++ closing⟩ = .error (.syntactic e))
    (hfind : findClosing? o.name (content ++ closing) = some ⟨closing.length, 0⟩) :
    Node.definition (Cursor.start (opening ++ (content ++ closing))) =
      .ok ({ name := o.name, required := ps.required, optional := ps.optional,
             content := trimLineBreaks content, raw := true },
        ⟨opening, some content, closing⟩, ⟨Text.size (opening ++ (content ++ closing)), []⟩) := by
  have hrun := ho.2 (content ++ closing) 0
  rw [Nat.zero_add] at hrun
  have hleft : Cursor.skipTo ⟨Text.size opening, content ++ closing⟩ closing.length =
      ⟨Text.size opening + Text.size content, closing⟩ := Cursor.skipTo_append ..
  have hafter : Cursor.skipTo ⟨Text.size opening, content ++ closing⟩ 0 =
      ⟨Text.size (opening ++ (content ++ closing)), []⟩ := by
    have hend := Cursor.skipTo_append (Text.size opening) (content ++ closing) []
    rw [List.append_nil] at hend
    rw [Text.size_append]
    exact hend
  have hupto : Cursor.upto ⟨Text.size opening + Text.size content, closing⟩
      ⟨Text.size (opening ++ (content ++ closing)), []⟩ = closing :=
    Cursor.upto_of_append (List.append_nil closing).symm
  simp only [Node.definition, Cursor.start, hrun, hform, settleClosing, hscan, hfind, hleft, hafter,
    Cursor.upto_append, Bool.or_true, skipLineBreak, hupto]

/-- Content whose braces stand in pairs with no slash behind them, and which is no template because of a
syntax error, is captured whole by the tags of a name around it: the text is one raw definition. -/
theorem parse_captured {name content : Text} {e : SyntaxError} (hname : IsName name)
    (hpairs : BracesInPairs content) (hclosing : NoClosing content)
    (h : parse content = .error (.syntactic e)) :
    parse (openingTagFor name ++ (content ++ closingTagFor name)) =
      .ok [.define { name, required := [], optional := [], content := trimLineBreaks content, raw := true }
        ⟨openingTagFor name, some content, closingTagFor name⟩] := by
  have hopening := openingText_openingTagFor hname
  obtain ⟨g, hg⟩ : ∃ g, scan none (Cursor.start content) = .error g := by
    unfold parse at h
    cases hnodes : Node.from? (Cursor.start content) with
    | ok ns => rw [hnodes] at h; cases h
    | error g => exact ⟨g, scan_of_from?_error hnodes⟩
  obtain ⟨f, hf⟩ := exists_scan_error hname (some name) _ (Nat.le_refl _) hpairs hg
    (Text.size (openingTagFor name))
  have hdef := definition_of_taken hopening rfl hf (findClosing?_append hname hclosing)
  rw [parse, Node.from?_opening (hopening.1 _) hdef (Node.from?_nil _)]
  rfl

def unclosedText : Text := bracketed "\r\n[[a]] [[f(\"]] [[\n"

theorem parse_captured_unclosed : IsName ['v'] ∧ BracesInPairs unclosedText ∧ NoClosing unclosedText ∧
    (∃ e, parse unclosedText = .error (.syntactic e)) ∧
    parse (bracketed "[v]\r\n[[a]] [[f(\"]] [[\n[/v]") =
      .ok [.define { name := ['v'], content := bracketed "[[a]] [[f(\"]] [[", raw := true }
        ⟨bracketed "[v]", some unclosedText, bracketed "[/v]"⟩] := by
  have hname : IsName ['v'] := ⟨'v', [], rfl, rfl, by simp⟩
  have hpairs : BracesInPairs unclosedText := by decide +kernel
  have hclosing : NoClosing unclosedText := by decide +kernel
  obtain ⟨e, he, -⟩ := exists_of_rejected (t := unclosedText) (P := fun _ => True) (by decide +kernel)
  exact ⟨hname, hpairs, hclosing, ⟨e, he⟩, parse_captured hname hpairs hclosing he⟩

end Stencil
