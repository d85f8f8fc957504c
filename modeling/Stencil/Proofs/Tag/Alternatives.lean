import Stencil.Proofs.Tag.Fair

/-! # Where a syntax error expects what it shows

A reader that fails lists what it would have taken, and what stands there is none of it: it has been tried
before (`Reader.Fair`). Two readers do not know any more what has been tried. Behind the default of a parameter
an equals sign is listed, though there is one already, and behind empty parentheses the alternatives of a bare
name are. An error expects what it shows in these places and in no other (`syntax_error_contradicts_iff`). -/
set_option autoImplicit false
namespace Stencil

open SyntaxError (Covers literal)

namespace Cursor

/-- The error shows the character behind a text with the property, and has these alternatives. -/
def Shows (c : Cursor) (P : Text → Prop) (ch : Char) (expected : List Text) (e : SyntaxError) : Prop :=
  ∃ z back, c.rest = z ++ ch :: back ∧ P z ∧
    e = SyntaxError.new expected (some [ch]) (c.offset + Text.size z)

theorem shows_unexpected {c : Cursor} {ch : Char} (h : c.rest.head? = some ch) (expected : List Text) :
    c.Shows (· = []) ch expected (c.unexpected expected) := by
  obtain ⟨t, ht⟩ := List.head?_eq_some_iff.1 h
  exact ⟨[], t, ht, rfl, by rw [unexpected, h]; rfl⟩

theorem Reaches.shows {c later : Cursor} {P Q : Text → Prop} {ch : Char} {expected : List Text}
    {e : SyntaxError} {front : Text} (h : c.Reaches later) (hfront : c.rest = front ++ later.rest)
    (hPQ : ∀ z, P z → Q (front ++ z)) (he : later.Shows P ch expected e) : c.Shows Q ch expected e := by
  obtain ⟨z, back, hz, hP, rfl⟩ := he
  have hoffset := congrArg Cursor.offset (h.eq_of_append hfront rfl)
  refine ⟨front ++ z, back, by rw [hfront, hz, List.append_assoc], hPQ z hP, ?_⟩
  rw [hoffset, Text.size_append, Nat.add_assoc]

end Cursor

namespace Reader

variable {c : Cursor} {e : SyntaxError}

/-! ## Errors of slots -/

def EmptyCall (z : Text) : Prop :=
  ∃ n w w' w'', z = n ++ (w ++ '(' :: (w' ++ ')' :: w'')) ∧ IsName n ∧ Spaces w ∧ Spaces w' ∧ Spaces w''

def afterName : List Text := Arithmetic.operators ++ [literal "(", literal "\x7d\x7d"]

theorem covers_afterName {ch : Char} : (∃ a ∈ afterName, Covers a [ch]) ↔ ch = '(' ∨ ch ∈ operatorSigns := by
  have hsigns : (∃ a ∈ afterName, Covers a [ch]) ↔
      '*' = ch ∨ '+' = ch ∨ '-' = ch ∨ '/' = ch ∨ '^' = ch ∨ '(' = ch := by
    simp [afterName, Arithmetic.operators, Covers, literal]
  rw [hsigns]
  grind [operatorSigns]

theorem ne_of_not_beginsExpression {ch : Char} (h : beginsExpression c.rest = false)
    (hch : c.rest.head? = some ch) : ch.isDigit = false ∧ ch ≠ '(' ∧ ch ≠ '-' := by
  obtain ⟨t, ht⟩ := List.head?_eq_some_iff.1 hch
  have hnot : ¬StartsExpression (ch :: t) := by
    rw [← ht, ← beginsExpression_iff, h]
    exact Bool.false_ne_true
  refine ⟨Bool.eq_false_iff.2 fun hdigit => hnot (.sign (.inl hdigit)), ?_, ?_⟩
  · rintro rfl
    exact hnot (.sign (.inr (.inl rfl)))
  · rintro rfl
    exact hnot (.sign (.inr (.inr rfl)))

theorem fair_slotName {raw : Bool} (hexpr : beginsExpression c.rest = false)
    (hat : raw = false → c.rest.head? ≠ some '@') : Fair (name (slotStarts raw)) c := by
  refine fair_name fun ch hch hstart => ?_
  obtain ⟨hdigit, hopening, hminus⟩ := ne_of_not_beginsExpression hexpr hch
  have hoperands := Arithmetic.not_covers_operands hstart hdigit hopening hminus
  cases raw with
  | true => exact hoperands
  | false => exact List.forall_mem_cons.2 ⟨not_covers_sign_of_head? (hat rfl) hch, hoperands⟩

theorem eq_of_close_error {expected : List Text} {s : Slot}
    (h : (closeSlot expected >>= fun _ => pure s).run c = .error e) : e = c.unexpected expected := by
  rcases cases_of_bind_error h with h | ⟨_, next, -, h⟩
  · simp only [closeSlot, StateT.run] at h
    split at h
    · cases h
    · exact (Except.error.inj h).symm
  · cases h

theorem shows_of_reference_error {raw : Bool} (hexpr : beginsExpression c.rest = false)
    (hat : raw = false → c.rest.head? ≠ some '@') (h : (reference raw).run c = .error e)
    (he : e.Contradicts) :
    ∃ ch, (ch = '(' ∨ ch ∈ operatorSigns) ∧ c.Shows EmptyCall ch afterName e := by
  obtain ⟨n, c₁, h₁, h⟩ := exists_of_bind_error (fair_slotName hexpr hat) h he
  obtain ⟨_, c₂, h₂, h⟩ := exists_of_bind_error (fair_skipSpace c₁) h he
  obtain ⟨o, c₃, h₃, h⟩ := exists_of_bind_error (fair_peek c₂) h he
  obtain ⟨rfl, rfl⟩ := Prod.mk.inj (Except.ok.inj h₃)
  obtain ⟨hn, hname⟩ := rest_of_name h₁
  obtain ⟨w, hw, hspaces⟩ := rest_of_skipSpace h₂
  have hreach : c.Reaches c₂ := ((advances_name _).reaches h₁).trans (advances_skipSpace.reaches h₂)
  by_cases hparen : c₂.rest.head? = some '('
  · simp only [if_pos hparen] at h
    obtain ⟨as, c₄, h₄, h⟩ := exists_of_bind_error (fair_arguments c₂) h he
    obtain ⟨_, c₅, h₅, h⟩ := exists_of_bind_error (fair_skipSpace c₄) h he
    obtain rfl := eq_of_close_error h
    obtain ⟨ch, hch, a, ha, hcovers⟩ := Cursor.contradicts_unexpected.1 he
    by_cases has : as = []
    · subst has
      refine ⟨ch, covers_afterName.1 ⟨a, ha, hcovers⟩, ?_⟩
      rcases rest_of_arguments hparen h₄ with ⟨-, w', hw', hinside⟩ | ⟨_, _, _, -, -, hargs, -⟩
      · obtain ⟨w'', hw'', hbehind⟩ := rest_of_skipSpace h₅
        have hfront : c.rest = (n ++ (w ++ '(' :: (w' ++ ')' :: w''))) ++ c₅.rest := by
          rw [hn, hw, hw', hw'']
          simp
        have hlater := (hreach.trans (advances_arguments.reaches h₄)).trans (advances_skipSpace.reaches h₅)
        refine hlater.shows hfront ?_ (Cursor.shows_unexpected hch _)
        rintro _ rfl
        exact ⟨n, w, w', w'', List.append_nil _, hname, hspaces, hinside, hbehind⟩
      · cases hargs
    · rw [if_neg has] at ha
      simp [List.mem_singleton.1 ha, Covers, literal] at hcovers
  · simp only [if_neg hparen] at h
    obtain rfl := eq_of_close_error h
    obtain ⟨ch, hch, hafter⟩ := Cursor.contradicts_unexpected.1 he
    rw [if_pos rfl] at hafter
    rcases covers_afterName.1 hafter with rfl | hsign
    · exact absurd hch hparen
    · obtain ⟨t, ht⟩ := List.head?_eq_some_iff.1 hch
      have hstarts : StartsExpression c.rest := by
        rw [hn, hw, ht]
        exact .name hname hspaces hsign
      rw [beginsExpression_iff.2 hstarts] at hexpr
      cases hexpr

/-! ## Errors of definition tags -/

inductive IsParameter : Text → Option Value → Prop
  | bare {n : Text} : IsName n → IsParameter n none
  | defaulted {z n : Text} {v : Value} : IsArgument z ⟨some n, v⟩ → IsParameter z (some v)

/-- Parameters with commas between them, the last one with a default. -/
inductive EndsInDefault : Text → Prop
  | last {w z w' : Text} {v : Value} : Spaces w → IsParameter z (some v) → Spaces w' →
      EndsInDefault (w ++ (z ++ w'))
  | cons {w y w' z : Text} {o : Option Value} : Spaces w → IsParameter y o → Spaces w' →
      EndsInDefault z → EndsInDefault (w ++ (y ++ (w' ++ ',' :: z)))

def afterParameter : List Text := [literal ")", literal ",", literal "="]

theorem fair_parameter (defaulted : Bool) (c : Cursor) : Fair (parameter defaulted) c := by
  refine .afterSpace fun next => (fair_identifier next).bind fun n next _ => .afterSpace fun next => ?_
  refine .afterEat (fun next => .afterSpace fun next => ?_) fun hne => ?_
  · exact (fair_plainValue next).bind fun v next _ => .afterSpace fun next => fair_pure _ next
  · cases defaulted with
    | true =>
        exact fair_fail fun ch hch => List.forall_mem_singleton.2 (not_covers_sign_of_head? hne hch)
    | false => exact fair_pure _ next

/-- What a parameter is read from. Behind one without a default there is no equals sign. -/
theorem rest_of_parameter {defaulted : Bool} {q : Text × Option Value} {next : Cursor}
    (h : (parameter defaulted).run c = .ok (q, next)) :
    ∃ w z w', c.rest = w ++ (z ++ (w' ++ next.rest)) ∧ Spaces w ∧ IsParameter z q.2 ∧ Spaces w' ∧
      (q.2 = none → next.rest.head? ≠ some '=') := by
  obtain ⟨_, c₁, h₁, h⟩ := exists_of_run_bind h
  obtain ⟨n, c₂, h₂, h⟩ := exists_of_run_bind h
  obtain ⟨_, c₃, h₃, h⟩ := exists_of_run_bind h
  obtain ⟨b, c₄, h₄, h⟩ := exists_of_run_bind h
  obtain ⟨w, hw, hspaces⟩ := rest_of_skipSpace h₁
  obtain ⟨hn, hname⟩ := rest_of_name h₂
  obtain ⟨w', hw', hspaces'⟩ := rest_of_skipSpace h₃
  cases b with
  | true =>
      obtain ⟨_, c₅, h₅, h⟩ := exists_of_run_bind h
      obtain ⟨v, c₆, h₆, h⟩ := exists_of_run_bind h
      obtain ⟨_, c₇, h₇, h⟩ := exists_of_run_bind h
      obtain ⟨rfl, rfl⟩ := Prod.mk.inj (Except.ok.inj h)
      obtain ⟨u, hu, hspaces₂⟩ := rest_of_skipSpace h₅
      obtain ⟨z, hz, hv⟩ := rest_of_value h₆
      obtain ⟨u', hu', hspaces₃⟩ := rest_of_skipSpace h₇
      refine ⟨w, n ++ (w' ++ '=' :: (u ++ z)), u', ?_, hspaces,
        .defaulted (.named hname hspaces' hspaces₂ hv), hspaces₃, nofun⟩
      rw [hw, hn, hw', rest_of_eat h₄, hu, hz, hu']
      simp
  | false =>
      cases defaulted with
      | true => cases h
      | false =>
          obtain ⟨rfl, rfl⟩ := Prod.mk.inj (Except.ok.inj h)
          obtain ⟨rfl, hne⟩ := head?_ne_of_eat h₄
          exact ⟨w, n, w', by rw [hw, hn, hw'], hspaces, .bare hname, hspaces', fun _ => hne⟩

theorem covers_afterParameter {ch : Char} :
    (∃ a ∈ afterParameter, Covers a [ch]) ↔ ch = ')' ∨ ch = ',' ∨ ch = '=' := by
  have hsigns : (∃ a ∈ afterParameter, Covers a [ch]) ↔ ')' = ch ∨ ',' = ch ∨ '=' = ch := by
    simp [afterParameter, Covers, literal]
  rw [hsigns]
  grind

theorem shows_of_parametersFrom_error {defaulted : Bool} {c : Cursor} {e : SyntaxError}
    (h : parametersFrom defaulted c = .error e) (he : e.Contradicts) :
    c.Shows EndsInDefault '=' afterParameter e := by
  fun_induction parametersFrom defaulted c with
  | case1 defaulted c f hf =>
      obtain rfl := Except.error.inj h
      exact absurd he (fair_parameter defaulted c f hf)
  | case2 defaulted c q next hq hr =>
      obtain rfl := Except.error.inj h
      simp [Cursor.contradicts_unexpected, hr] at he
  | case3 defaulted c q next hq tail g hg hr ih =>
      obtain rfl := Except.error.inj h
      obtain ⟨w, z, w', hz, hspaces, hparameter, hspaces', -⟩ := rest_of_parameter hq
      have hreach := ((advances_parameter defaulted).reaches hq).trans (next.reaches_advance 1)
      have hfront : c.rest = (w ++ (z ++ (w' ++ [',']))) ++ (next.advance 1).rest := by
        simp [hz, hr, Cursor.advance]
      refine hreach.shows hfront (fun y hy => ?_) (ih hg)
      simpa using EndsInDefault.cons hspaces hparameter hspaces' hy
  | case4 => cases h
  | case5 => cases h
  | case6 defaulted c q next hq ch tail hr hcomma hparen =>
      obtain rfl := Except.error.inj h
      obtain ⟨w, z, w', hz, hspaces, hparameter, hspaces', hnone⟩ := rest_of_parameter hq
      obtain ⟨d, hd, hcovers⟩ := Cursor.contradicts_unexpected.1 he
      obtain rfl : ch = d := by simpa [hr] using hd
      obtain rfl : ch = '=' := ((covers_afterParameter.1 hcovers).resolve_left hparen).resolve_left hcomma
      cases hdefault : q.2 with
      | none => exact absurd hd (hnone hdefault)
      | some v =>
          rw [hdefault] at hparameter
          have hfront : c.rest = (w ++ (z ++ w')) ++ next.rest := by simp [hz]
          refine ((advances_parameter defaulted).reaches hq).shows hfront ?_ (Cursor.shows_unexpected hd _)
          rintro _ rfl
          rw [List.append_nil]
          exact .last hspaces hparameter hspaces'

/-- The text from the opening parenthesis of a definition to the default of a parameter. -/
def ParenthesizedDefault (z : Text) : Prop := ∃ w y, z = '(' :: (w ++ y) ∧ Spaces w ∧ EndsInDefault y

theorem shows_of_parameters_error (hhead : c.rest.head? = some '(') (h : parameters.run c = .error e)
    (he : e.Contradicts) : c.Shows ParenthesizedDefault '=' afterParameter e := by
  obtain ⟨_, c₁, h₁, h⟩ := exists_of_bind_error (fair_skip 1 c) h he
  obtain ⟨_, c₂, h₂, h⟩ := exists_of_bind_error (fair_skipSpace c₁) h he
  obtain ⟨b, c₃, h₃, h⟩ := exists_of_bind_error (fair_eat ')' c₂) h he
  have hreach := (((advances_skip 1).reaches h₁).trans (advances_skipSpace.reaches h₂)).trans
    ((advances_eat ')').reaches h₃)
  obtain ⟨t, ht⟩ := List.head?_eq_some_iff.1 hhead
  have hskip : c.rest = '(' :: c₁.rest := by
    obtain ⟨-, rfl⟩ := Prod.mk.inj (Except.ok.inj h₁)
    simp [Cursor.advance, ht]
  obtain ⟨w, hw, hspaces⟩ := rest_of_skipSpace h₂
  cases b with
  | true => cases h
  | false =>
      have hfront : c.rest = ('(' :: w) ++ c₃.rest := by
        rw [hskip, hw, rest_of_eat h₃]
        rfl
      exact hreach.shows hfront (fun y hy => ⟨w, y, rfl, hspaces, hy⟩) (shows_of_parametersFrom_error h he)

theorem fair_close (f : Form) (c : Cursor) : Fair (do skipSpace; closeBrace; return f) c :=
  .afterSpace fun next => (fair_closeBrace next).map fun _ => f

theorem shows_of_form_error (h : form.run c = .error e) (he : e.Contradicts) :
    c.Shows ParenthesizedDefault '=' afterParameter e := by
  obtain ⟨o, c₁, h₁, h⟩ := exists_of_bind_error (fair_peek c) h he
  obtain ⟨ho, rfl⟩ := Prod.mk.inj (Except.ok.inj h₁)
  split at h
  next =>
      have hfair : Fair (do
          skip 1; skipSpace; let v ← value []; skipSpace; closeBrace; return Form.single v) c :=
        (fair_skip 1 c).bind fun _ _ _ => .afterSpace fun next =>
          (fair_plainValue next).bind fun v next _ => fair_close (.single v) next
      exact absurd he (hfair e h)
  next =>
      rcases cases_of_bind_error h with hparameters | ⟨ps, next, -, h⟩
      · exact shows_of_parameters_error ho hparameters he
      · exact absurd he (fair_close (.block ps) next e h)
  next => cases h
  next hequals hopening hbrace =>
      refine absurd he (fair_fail (fun ch hch => ?_) e h)
      simp only [List.forall_mem_cons]
      refine ⟨not_covers_sign_of_head? ?_ hch, not_covers_sign_of_head? ?_ hch,
        not_covers_sign_of_head? ?_ hch, List.forall_mem_nil _⟩
      all_goals rw [ho]; assumption

def OpensParameters (t : Text) : Prop :=
  ∃ x gap mark gap' n w, t = x ++ ('{' :: (gap ++ (mark ++ (gap' ++ (n ++ w))))) ∧
    (∀ ch ∈ gap, isLineBlank ch = true) ∧ (mark = [] ∨ mark = ['@']) ∧
    (∀ ch ∈ gap', isLineBlank ch = true) ∧ IsName n ∧ Spaces w

def BehindDefault (t : Text) : Prop :=
  ∃ front z, t = front ++ z ∧ OpensParameters front ∧ ParenthesizedDefault z

def BehindCall (t : Text) : Prop := ∃ front z, t = front ++ z ∧ OpensSlot front ∧ EmptyCall z

theorem fair_definitionName {raw : Bool} (hat : raw = false → c.rest.head? ≠ some '@') :
    Fair (name (if raw then [identifier] else [literal "@", identifier])) c := by
  refine fair_name fun ch hch hstart => ?_
  have hname : ∀ a ∈ [identifier], ¬Covers a [ch] :=
    List.forall_mem_singleton.2 (not_covers_identifier hstart)
  cases raw with
  | true => exact hname
  | false => exact List.forall_mem_cons.2 ⟨not_covers_sign_of_head? (hat rfl) hch, hname⟩

theorem rest_of_skipBlanks {next : Cursor} {u : Unit} (h : skipBlanks.run c = .ok (u, next)) :
    ∃ w, c.rest = w ++ next.rest ∧ ∀ ch ∈ w, isLineBlank ch = true := by
  obtain ⟨w, c₁, h₁, h₂⟩ := exists_of_run_bind h
  obtain ⟨-, rfl⟩ := Prod.mk.inj (Except.ok.inj h₂)
  exact ⟨w, rest_of_takeWhile h₁⟩

theorem shows_of_opening_error (hlead : lead c.rest = .opening) (h : opening.run c = .error e)
    (he : e.Contradicts) : c.Shows BehindDefault '=' afterParameter e := by
  obtain ⟨u, hu⟩ := exists_cons_of_lead (t := c.rest) (by rw [hlead]; decide)
  obtain ⟨_, c₁, h₁, h⟩ := exists_of_bind_error (fair_skip 1 c) h he
  obtain ⟨_, c₂, h₂, h⟩ := exists_of_bind_error (fair_skipBlanks c₁) h he
  obtain ⟨mark, c₃, h₃, h⟩ := exists_of_bind_error (fair_eat '@' c₂) h he
  obtain ⟨_, c₄, h₄, h⟩ := exists_of_bind_error (fair_skipBlanks c₃) h he
  have hat : mark = false → c₄.rest.head? ≠ some '@' := by
    rintro rfl
    exact head?_ne_of_unmarked h₂ h₃ h₄
  obtain ⟨n, c₅, h₅, h⟩ := exists_of_bind_error (fair_definitionName hat) h he
  obtain ⟨_, c₆, h₆, h⟩ := exists_of_bind_error (fair_skipSpace c₅) h he
  have hform : c₆.Shows ParenthesizedDefault '=' afterParameter e := by
    rcases cases_of_bind_error h with hform | ⟨f, last, -, hpure⟩
    · exact shows_of_form_error hform he
    · cases hpure
  have hreach : c.Reaches c₆ := (((((advances_skip 1).reaches h₁).trans
    (advances_skipBlanks.reaches h₂)).trans ((advances_eat '@').reaches h₃)).trans
    (advances_skipBlanks.reaches h₄)).trans
    (((advances_name _).reaches h₅).trans (advances_skipSpace.reaches h₆))
  have hskip : c.rest = '{' :: c₁.rest := by
    obtain ⟨-, rfl⟩ := Prod.mk.inj (Except.ok.inj h₁)
    simp [Cursor.advance, hu]
  obtain ⟨gap, hgap, hblanks⟩ := rest_of_skipBlanks h₂
  obtain ⟨gap', hgap', hblanks'⟩ := rest_of_skipBlanks h₄
  obtain ⟨hn, hname⟩ := rest_of_name h₅
  obtain ⟨w, hw, hspaces⟩ := rest_of_skipSpace h₆
  have hfront : c.rest =
      ('{' :: (gap ++ ((if mark then ['@'] else []) ++ (gap' ++ (n ++ w))))) ++ c₆.rest := by
    rw [hskip, hgap, rest_of_eat h₃, hgap', hn, hw]
    simp
  refine hreach.shows hfront (fun z hz => ⟨_, z, rfl, ?_, hz⟩) hform
  exact ⟨[], gap, _, gap', n, w, rfl, hblanks, by cases mark <;> simp, hblanks', hname, hspaces⟩

theorem shows_of_slot_error (hlead : lead c.rest = .slot) (h : slot.run c = .error e)
    (he : e.Contradicts) : ∃ ch, (ch = '(' ∨ ch ∈ operatorSigns) ∧ c.Shows BehindCall ch afterName e := by
  obtain ⟨front, raw, inside, hreach, hfront, hopens, hat, hinside⟩ := exists_inside_of_slot_error hlead h
  rw [run_slotInside] at hinside
  split at hinside
  next => exact absurd he (fair_expression raw inside e hinside)
  next hexpr =>
    obtain ⟨ch, hch, hshows⟩ :=
      shows_of_reference_error (Bool.eq_false_iff.2 hexpr) hat hinside he
    exact ⟨ch, hch, hreach.shows hfront (fun z hz => ⟨front, z, rfl, hopens, hz⟩) hshows⟩

/-! ### Errors of composed readers -/

theorem bind_error {α β : Type} {p : Reader α} {f : α → Reader β}
    (h : p.run c = .error e) : (p >>= f).run c = .error e := by
  rw [StateT.run_bind, h]
  rfl

theorem run_bind_error {α β : Type} {p : Reader α} {f : α → Reader β} {a : α}
    {c' : Cursor} (h : p.run c = .ok (a, c')) (hf : (f a).run c' = .error e) :
    (p >>= f).run c = .error e := (run_bind_of h f).trans hf

theorem parametersFrom_other {defaulted : Bool} {next : Cursor} {q : Text × Option Value} {ch : Char}
    {tail : Text} (hq : (parameter defaulted).run c = .ok (q, next)) (hr : next.rest = ch :: tail)
    (hcomma : ch ≠ ',') (hparen : ch ≠ ')') :
    parametersFrom defaulted c = .error (next.unexpected afterParameter) := by
  rw [parametersFrom]
  split
  next e he => rw [hq] at he; cases he
  next q' next' hq' =>
    obtain ⟨rfl, rfl⟩ := Prod.mk.inj (Except.ok.inj (hq.symm.trans hq'))
    split
    next hr' => rw [hr] at hr'; cases hr'
    next ch' tail' hr' =>
      obtain ⟨rfl, rfl⟩ := List.cons.inj (hr.symm.trans hr')
      rw [if_neg hcomma, if_neg hparen]
      rfl

end Reader

/-! ## Errors of templates -/

open Reader (BehindDefault BehindCall afterParameter afterName operatorSigns)

/-- The error expects an equals sign behind a default, or what follows a bare name behind empty parentheses, and
shows it. -/
def Cursor.Overlooks (c : Cursor) (e : SyntaxError) : Prop :=
  c.Shows BehindDefault '=' afterParameter e ∨
    ∃ ch, (ch = '(' ∨ ch ∈ operatorSigns) ∧ c.Shows BehindCall ch afterName e

theorem Reader.BehindDefault.append {t : Text} (h : BehindDefault t) (s : Text) : BehindDefault (s ++ t) := by
  obtain ⟨front, z, rfl, ⟨x, gap, mark, gap', n, w, rfl, hopens⟩, hz⟩ := h
  have hmore : OpensParameters (s ++ (x ++ '{' :: (gap ++ (mark ++ (gap' ++ (n ++ w)))))) :=
    ⟨s ++ x, gap, mark, gap', n, w, by rw [List.append_assoc], hopens⟩
  exact ⟨_, z, (List.append_assoc ..).symm, hmore, hz⟩

theorem Reader.BehindCall.append {t : Text} (h : BehindCall t) (s : Text) : BehindCall (s ++ t) := by
  obtain ⟨front, z, rfl, hopens, hz⟩ := h
  exact ⟨s ++ front, z, (List.append_assoc ..).symm, hopens.append s, hz⟩

theorem Cursor.Reaches.overlooks {c later : Cursor} {e : SyntaxError} (h : c.Reaches later)
    (he : later.Overlooks e) : c.Overlooks e := by
  obtain ⟨passed, hpassed, -⟩ := id h
  rcases he with he | ⟨ch, hch, he⟩
  · exact .inl (h.shows hpassed (fun _ hz => hz.append passed) he)
  · exact .inr ⟨ch, hch, h.shows hpassed (fun _ hz => hz.append passed) he⟩

theorem not_contradicts_strayClosing (slash : Nat) : ¬(strayClosing slash).Contradicts := by
  rw [strayClosing, SyntaxError.contradicts_new]
  decide

theorem explains_overlooks : Explains fun c e => e.Contradicts → c.Overlooks e where
  reaches := fun h he hcontradicts => h.overlooks (he hcontradicts)
  unclosed := fun c _ he => absurd he (c.not_contradicts_unclosed _)
  slot := fun hlead h he => .inr (Reader.shows_of_slot_error hlead h he)
  closing := fun _ h he => absurd he (Reader.fair_closing _ _ h)
  stray := fun {_ _ _ slash} _ _ he => absurd he (not_contradicts_strayClosing slash)
  opening := fun hlead h he => .inl (Reader.shows_of_opening_error hlead h he)

theorem Node.from?_slot_error {c : Cursor} {e : SyntaxError} (hlead : lead c.rest = .slot)
    (h : Reader.slot.run c = .error e) : from? c = .error (.syntactic e) := by
  obtain ⟨ch, rest, hc⟩ := ne_nil_of_lead (t := c.rest) (by rw [hlead]; decide)
  rw [from?.eq_def]
  split
  next hnil => rw [hc] at hnil; cases hnil
  next =>
    simp only [hlead]
    split
    next f hf =>
      obtain rfl := Except.error.inj (h.symm.trans hf)
      rfl
    next hs => rw [h] at hs; cases hs

theorem Node.from?_opening_error {c : Cursor} {e : SyntaxError} (hlead : lead c.rest = .opening)
    (h : Reader.opening.run c = .error e) : from? c = .error (.syntactic e) := by
  obtain ⟨ch, rest, hc⟩ := ne_nil_of_lead (t := c.rest) (by rw [hlead]; decide)
  have hdefinition : definition c = .error (.syntactic e) := by rw [definition, h]
  rw [from?.eq_def]
  split
  next hnil => rw [hc] at hnil; cases hnil
  next =>
    simp only [hlead]
    split
    next f hf =>
      obtain rfl := Except.error.inj (hdefinition.symm.trans hf)
      rfl
    next hd => rw [hdefinition] at hd; cases hd

theorem parse_of_from?_error {t : Text} {e : SyntaxError}
    (h : Node.from? (Cursor.start t) = .error (.syntactic e)) :
    parse t = .error (.syntactic (e.locate t)) := by
  rw [parse, h]
  rfl

theorem syntax_error_contradicts_iff {t : Text} {e : SyntaxError} (h : parse t = .error (.syntactic e)) :
    e.Contradicts ↔
      (∃ z back, t = z ++ '=' :: back ∧ BehindDefault z ∧
        e = (SyntaxError.new afterParameter (some ['=']) (Text.size z)).locate t) ∨
      ∃ z ch back, t = z ++ ch :: back ∧ BehindCall z ∧ (ch = '(' ∨ ch ∈ operatorSigns) ∧
        e = (SyntaxError.new afterName (some [ch]) (Text.size z)).locate t := by
  have hstart : ∀ z, (Cursor.start t).offset + Text.size z = Text.size z := fun z => Nat.zero_add _
  obtain ⟨f, hf, rfl⟩ := explains_overlooks.exists_of_parse h
  constructor
  · intro he
    rcases hf he with ⟨z, back, ht, hz, rfl⟩ | ⟨ch, hch, z, back, ht, hz, rfl⟩
    · exact .inl ⟨z, back, ht, hz, by rw [hstart]⟩
    · exact .inr ⟨z, ch, back, ht, hz, hch, by rw [hstart]⟩
  · rintro (⟨z, back, -, -, he⟩ | ⟨z, ch, back, -, -, hch, he⟩)
    · rw [he, SyntaxError.contradicts_locate, SyntaxError.contradicts_new]
      exact ⟨['='], rfl, Reader.covers_afterParameter.2 (.inr (.inr rfl))⟩
    · rw [he, SyntaxError.contradicts_locate, SyntaxError.contradicts_new]
      exact ⟨[ch], rfl, Reader.covers_afterName.2 hch⟩

def calledSum : Text := bracketed "[[f()+1]]"

theorem slot_calledSum : Reader.slot.run (Cursor.start calledSum) =
    .error (SyntaxError.new afterName (some ['+']) 5) := rfl

theorem syntax_error_contradicts_called : ∃ e, parse calledSum = .error (.syntactic e) ∧ e.Contradicts ∧
    ((∃ z back, calledSum = z ++ '=' :: back ∧ BehindDefault z ∧
        e = (SyntaxError.new afterParameter (some ['=']) (Text.size z)).locate calledSum) ∨
      ∃ z ch back, calledSum = z ++ ch :: back ∧ BehindCall z ∧ (ch = '(' ∨ ch ∈ operatorSigns) ∧
        e = (SyntaxError.new afterName (some [ch]) (Text.size z)).locate calledSum) := by
  have hparse := parse_of_from?_error (Node.from?_slot_error rfl slot_calledSum)
  have he : ((SyntaxError.new afterName (some ['+']) 5).locate calledSum).Contradicts := by
    rw [SyntaxError.contradicts_locate, SyntaxError.contradicts_new]
    exact ⟨['+'], rfl, Reader.covers_afterName.2 (by decide)⟩
  exact ⟨_, hparse, he, (syntax_error_contradicts_iff hparse).1 he⟩

def doubledDefault : Text := bracketed "[v(a=1=2)]x[/v]"

theorem opening_doubledDefault : Reader.opening.run (Cursor.start doubledDefault) =
    .error (SyntaxError.new afterParameter (some ['=']) 6) := by
  have hparameter : (Reader.parameter false).run ⟨3, doubledDefault.drop 3⟩ =
      .ok ((['a'], some (.number (Decimal.ofNumeral false ['1'] []))), ⟨6, doubledDefault.drop 6⟩) := rfl
  have hparameters : Reader.parameters.run ⟨2, doubledDefault.drop 2⟩ =
      .error (SyntaxError.new afterParameter (some ['=']) 6) := by
    refine Reader.run_bind_error rfl (Reader.run_bind_error rfl (Reader.run_bind_error rfl ?_))
    have hequals : '=' ≠ ',' ∧ '=' ≠ ')' := by decide
    exact Reader.parametersFrom_other hparameter rfl hequals.1 hequals.2
  have hform : Reader.form.run ⟨2, doubledDefault.drop 2⟩ =
      .error (SyntaxError.new afterParameter (some ['=']) 6) :=
    Reader.run_bind_error rfl (Reader.bind_error hparameters)
  refine Reader.run_bind_error rfl (Reader.run_bind_error rfl (Reader.run_bind_error rfl ?_))
  exact Reader.run_bind_error rfl (Reader.run_bind_error rfl (Reader.run_bind_error rfl
    (Reader.bind_error hform)))

theorem parse_doubledDefault : ∃ e, parse doubledDefault = .error (.syntactic e) ∧
    e.found = some ['='] ∧ literal "=" ∈ e.expected := by
  refine ⟨_, parse_of_from?_error (Node.from?_opening_error rfl opening_doubledDefault), rfl, ?_⟩
  show literal "=" ∈ (SyntaxError.new afterParameter (some ['=']) 6).expected
  rw [SyntaxError.mem_expected_new]
  simp [afterParameter]

end Stencil
