import Stencil.Proofs.Tag.Lookahead
import Stencil.Tag.Opening

/-! # Tags end with a delimiter

A slot, an opening tag and a closing tag are read without regard to what stands behind them
(`closed_slot`, `closed_opening`, `closed_closingName`). -/
set_option autoImplicit false
namespace Stencil.Reader

variable {α β : Type}

/-! ## Slots -/

theorem local_argument : Local argument := by
  refine local_peek.bind fun o => ?_
  have hunnamed : Local (do return ⟨none, ← value ["identifier".toList]⟩ : Reader Argument) :=
    (local_value _).bind fun _ => local_pure _
  cases o with
  | none => exact hunnamed
  | some c =>
      exact .ite
        ((local_takeWhile _).bind fun _ => local_skipSpace.bind fun _ =>
          (closed_demand (by decide) _).toLocal.bind fun _ => local_skipSpace.bind fun _ =>
            (local_value _).bind fun _ => local_pure _)
        hunnamed

theorem local_spacedArgument : Local spacedArgument :=
  local_skipSpace.bind fun _ => local_argument.bind fun _ => local_skipSpace.bind fun _ =>
    local_pure _

theorem argumentsFrom_last {c next : Cursor} {a : Argument} {tail : Text}
    (ha : spacedArgument.run c = .ok (a, next)) (hr : next.rest = ')' :: tail) :
    argumentsFrom c = .ok ([a], next.advance 1) := by
  rw [argumentsFrom]
  split
  next e he => rw [ha] at he; cases he
  next a' next' ha' =>
    obtain ⟨rfl, rfl⟩ := Prod.mk.inj (Except.ok.inj (ha.symm.trans ha'))
    split
    next hr' => rw [hr] at hr'; cases hr'
    next ch tail' hr' =>
      obtain ⟨rfl, rfl⟩ := List.cons.inj (hr.symm.trans hr')
      rfl

theorem argumentsFrom_cons {c next last : Cursor} {a : Argument} {as : List Argument} {tail : Text}
    (ha : spacedArgument.run c = .ok (a, next)) (hr : next.rest = ',' :: tail)
    (has : argumentsFrom (next.advance 1) = .ok (as, last)) :
    argumentsFrom c = .ok (a :: as, last) := by
  rw [argumentsFrom]
  split
  next e he => rw [ha] at he; cases he
  next a' next' ha' =>
    obtain ⟨rfl, rfl⟩ := Prod.mk.inj (Except.ok.inj (ha.symm.trans ha'))
    split
    next hr' => rw [hr] at hr'; cases hr'
    next ch tail' hr' =>
      obtain ⟨rfl, rfl⟩ := List.cons.inj (hr.symm.trans hr')
      rw [if_pos rfl, has]

theorem takes_argumentsFrom_last {a : Argument} {y r : Text}
    (ha : Takes spacedArgument y a (')' :: r)) : Takes argumentsFrom (y ++ [')']) [a] r := by
  intro o
  have h := argumentsFrom_last (ha o) rfl
  rw [List.append_assoc, List.singleton_append, StateT.run, h]
  simp [Cursor.advance, Nat.add_assoc]

theorem takes_argumentsFrom_cons {a : Argument} {as : List Argument} {y z r : Text}
    (ha : Takes spacedArgument y a (',' :: (z ++ r))) (has : Takes argumentsFrom z as r) :
    Takes argumentsFrom (y ++ ',' :: z) (a :: as) r := by
  intro o
  have hlater := has (o + Text.size y + Char.utf8Size ',')
  have hnext : argumentsFrom (Cursor.advance ⟨o + Text.size y, ',' :: (z ++ r)⟩ 1) =
      .ok (as, ⟨o + Text.size y + Char.utf8Size ',' + Text.size z, r⟩) := by
    simpa [Cursor.advance, StateT.run] using hlater
  have h := argumentsFrom_cons (ha o) rfl hnext
  rw [List.append_assoc, List.cons_append, StateT.run, h]
  simp [Nat.add_assoc]

theorem closed_argumentsFrom : Closed (argumentsFrom : Reader (List Argument)) := by
  refine ⟨fun {c as c'} h => ?_⟩
  simp only [StateT.run] at h
  fun_induction argumentsFrom c generalizing as with
  | case1 => cases h
  | case2 => cases h
  | case3 => cases h
  | case4 c a next ha tail bs last hn hr ih =>
      obtain ⟨rfl, rfl⟩ := Prod.mk.inj (Except.ok.inj h)
      obtain ⟨y, hy, hyt⟩ := local_spacedArgument.takes ha
      obtain ⟨z, hz, hends, hzt⟩ := ih hn
      obtain rfl : tail = z ++ last.rest := by simpa [Cursor.advance, hr] using hz
      have hcomma : Ends (',' :: z) := hends.append [',']
      refine ⟨y ++ ',' :: z, by simp [hy, hr], hcomma.append y, fun r => ?_⟩
      exact takes_argumentsFrom_cons (hyt _ (by rw [hr]; exact hcomma.alike last.rest r)) (hzt r)
  | case5 c a next ha tail hr hc =>
      obtain ⟨rfl, rfl⟩ := Prod.mk.inj (Except.ok.inj h)
      obtain ⟨y, hy, hyt⟩ := local_spacedArgument.takes ha
      have hparen : Ends [')'] := ⟨by simp, by simp⟩
      refine ⟨y ++ [')'], by simp [hy, hr, Cursor.advance], hparen.append y, fun r => ?_⟩
      exact takes_argumentsFrom_last (hyt _ (by rw [hr]; exact hparen.alike tail r))
  | case6 => cases h

theorem closed_arguments : Closed arguments :=
  .after (local_skip 1) fun _ => .after local_skipSpace fun _ =>
    closed_eat_bind (by decide) rfl closed_argumentsFrom

theorem closed_closeSlot (expected : List Text) : Closed (closeSlot expected) := by
  refine ⟨fun {c a c'} h => ?_⟩
  simp only [closeSlot, StateT.run] at h
  by_cases hstart : Text.startsWith c.rest slotEnd = true
  · rw [if_pos hstart] at h
    obtain ⟨-, rfl⟩ := Prod.mk.inj (Except.ok.inj h)
    obtain ⟨r', hr'⟩ := List.isPrefixOf_iff_prefix.1 hstart
    refine ⟨slotEnd, by simp [Cursor.advance, ← hr', slotEnd], ⟨by simp [slotEnd], by simp [slotEnd]⟩,
      fun r o => ?_⟩
    have hpre : Text.startsWith (slotEnd ++ r) slotEnd = true :=
      List.isPrefixOf_iff_prefix.2 (List.prefix_append ..)
    simp only [closeSlot, StateT.run, hpre, if_true]
    exact congrArg _ (congrArg _ (Cursor.advance_append o slotEnd r))
  · rw [if_neg hstart] at h
    cases h

theorem closed_reference (raw : Bool) : Closed (reference raw) := by
  refine .after (local_name _) fun n => .after local_skipSpace fun _ => .after local_peek fun o => ?_
  have hfinish (args : List Argument) : Closed (do
      closeSlot <|
        if args = [] then Arithmetic.operators ++ [SyntaxError.literal "(", SyntaxError.literal "\x7d\x7d"]
        else [SyntaxError.literal "\x7d\x7d"]
      return { name := n, args, raw, expr := none } : Reader Slot) :=
    (closed_closeSlot _).map fun _ => _
  exact .ite
    (.after closed_arguments.toLocal fun args => .after local_skipSpace fun _ =>
      .after (local_pure args) hfinish)
    (.after (local_pure []) hfinish)

/-! ### Expressions -/

theorem before?_mark {mark : Text} (hmark : mark ≠ []) (r : Text) :
    Text.before? mark (mark ++ r) = some [] := by
  have hstart : Text.startsWith (mark ++ r) mark = true :=
    List.isPrefixOf_iff_prefix.2 (List.prefix_append ..)
  obtain ⟨m, ms, rfl⟩ := List.exists_cons_of_ne_nil hmark
  rw [List.cons_append] at hstart ⊢
  rw [Text.before?, if_pos hstart]

theorem exists_of_before? {mark : Text} (hmark : mark ≠ []) : ∀ {t inside : Text},
    Text.before? mark t = some inside → ∃ after, t = inside ++ (mark ++ after) ∧
      ∀ r, Text.before? mark (inside ++ (mark ++ r)) = some inside := by
  intro t
  induction t with
  | nil =>
      intro inside h
      simp [Text.before?, hmark] at h
  | cons c t ih =>
      intro inside h
      rw [Text.before?] at h
      by_cases hstart : Text.startsWith (c :: t) mark = true
      · rw [if_pos hstart] at h
        obtain rfl := Option.some.inj h
        obtain ⟨after, hafter⟩ := List.isPrefixOf_iff_prefix.1 hstart
        exact ⟨after, hafter.symm, before?_mark hmark⟩
      · rw [if_neg hstart] at h
        obtain ⟨inside', hinside, rfl⟩ := Option.map_eq_some_iff.1 h
        obtain ⟨after, rfl, hall⟩ := ih hinside
        refine ⟨after, rfl, fun r => ?_⟩
        have hnone : ¬ Text.startsWith (c :: (inside' ++ (mark ++ r))) mark = true := by
          intro hpre
          apply hstart
          have hfront : mark <+: c :: (inside' ++ mark) := by
            refine List.prefix_of_prefix_length_le (List.isPrefixOf_iff_prefix.1 hpre)
              (by simp [← List.append_assoc]) ?_
            simp only [List.length_cons, List.length_append]
            omega
          refine List.isPrefixOf_iff_prefix.2 (hfront.trans ?_)
          simp [← List.append_assoc]
        rw [List.cons_append, Text.before?, if_neg hnone, hall]
        rfl

theorem closed_expression (raw : Bool) : Closed (expression raw) := by
  refine ⟨fun {c s c'} h => ?_⟩
  obtain ⟨o, rest⟩ := c
  simp only [expression, StateT.run] at h
  split at h
  · cases h
  next inside hinside =>
    obtain ⟨after, rfl, hall⟩ := exists_of_before? (by simp [slotEnd]) hinside
    have hadvance (o : Nat) (r : Text) :
        Cursor.advance ⟨o, inside ++ (slotEnd ++ r)⟩ (inside.length + 2) =
          ⟨o + Text.size (inside ++ slotEnd), r⟩ := by
      rw [← List.append_assoc]
      have hlength : inside.length + 2 = (inside ++ slotEnd).length := by simp [slotEnd]
      rw [hlength, Cursor.advance_append]
    split at h
    · cases h
    next e he =>
      obtain ⟨rfl, rfl⟩ := Prod.mk.inj (Except.ok.inj h)
      rw [hadvance]
      have hends : Ends slotEnd := ⟨by simp [slotEnd], by simp [slotEnd]⟩
      refine ⟨inside ++ slotEnd, by simp, hends.append inside, fun r o' => ?_⟩
      simp only [expression, StateT.run, List.append_assoc, hall, he, hadvance]

theorem dropWhile_append_of_mem {p : Char → Bool} {ch : Char} (hp : p ch = false) : ∀ {z : Text},
    ch ∈ z → ∀ r, (z ++ r).dropWhile p = z.dropWhile p ++ r ∧ ch ∈ z.dropWhile p := by
  intro z
  induction z with
  | nil => intro hz; exact absurd hz (by simp)
  | cons c z ih =>
      intro hz r
      by_cases hc : p c = true
      · have hne : ch ≠ c := by
          rintro rfl
          rw [hp] at hc
          exact absurd hc (by simp)
        rw [List.cons_append, List.dropWhile_cons_of_pos hc, List.dropWhile_cons_of_pos hc]
        exact ih ((List.mem_cons.1 hz).resolve_left hne) r
      · rw [List.cons_append, List.dropWhile_cons_of_neg hc, List.dropWhile_cons_of_neg hc]
        exact ⟨rfl, hz⟩

/-- A text with a closing brace shows whether it begins an expression. -/
theorem beginsExpression_append {z : Text} (hz : '}' ∈ z) (r : Text) :
    beginsExpression (z ++ r) = beginsExpression z := by
  obtain ⟨hnames, hmem⟩ := dropWhile_append_of_mem (p := isNameChar) (by decide) hz r
  obtain ⟨hspaces, hmem'⟩ := dropWhile_append_of_mem (p := isTagSpace) (by decide) hmem r
  obtain ⟨c, z, rfl⟩ := List.exists_cons_of_ne_nil (List.ne_nil_of_mem hz)
  rw [List.cons_append] at hnames ⊢
  unfold beginsExpression
  simp only [hnames, hspaces]
  obtain ⟨d, u, hu⟩ := List.exists_cons_of_ne_nil (List.ne_nil_of_mem hmem')
  rw [hu]
  rfl

theorem finishes_closeSlot (expected : List Text) : Finishes slotEnd (closeSlot expected) := by
  refine ⟨fun {c a c'} h => ?_⟩
  simp only [closeSlot, StateT.run] at h
  by_cases hstart : Text.startsWith c.rest slotEnd = true
  · rw [if_pos hstart] at h
    obtain ⟨-, rfl⟩ := Prod.mk.inj (Except.ok.inj h)
    obtain ⟨r, hr⟩ := List.isPrefixOf_iff_prefix.1 hstart
    exact ⟨[], by simp [Cursor.advance, ← hr, slotEnd]⟩
  · rw [if_neg hstart] at h
    cases h

theorem finishes_reference (raw : Bool) : Finishes slotEnd (reference raw) := by
  refine .after (advances_name _) fun n => .after advances_skipSpace fun _ =>
    .after advances_peek fun o => ?_
  have hfinish (args : List Argument) : Finishes slotEnd (do
      closeSlot <|
        if args = [] then Arithmetic.operators ++ [SyntaxError.literal "(", SyntaxError.literal "\x7d\x7d"]
        else [SyntaxError.literal "\x7d\x7d"]
      return { name := n, args, raw, expr := none } : Reader Slot) :=
    (finishes_closeSlot _).map fun _ => _
  exact .ite
    (.after advances_arguments fun args => .after advances_skipSpace fun _ =>
      .after (advances_pure args) hfinish)
    (.after (advances_pure []) hfinish)

theorem finishes_expression (raw : Bool) : Finishes slotEnd (expression raw) := by
  refine ⟨fun {c s c'} h => ?_⟩
  obtain ⟨z, hz, -, -⟩ := (closed_expression raw).takes h
  simp only [expression, StateT.run] at h
  split at h
  · cases h
  next inside hinside =>
    obtain ⟨after, hrest, -⟩ := exists_of_before? (by simp [slotEnd]) hinside
    split at h
    · cases h
    next e he =>
      obtain ⟨-, rfl⟩ := Prod.mk.inj (Except.ok.inj h)
      refine ⟨inside, ?_⟩
      have hlength : inside.length + 2 = (inside ++ slotEnd).length := by simp [slotEnd]
      rw [hrest, hlength, ← List.append_assoc, Cursor.advance, hrest, ← List.append_assoc]
      simp

def slotInside (raw : Bool) : Reader Slot := do
  let c ← get
  if beginsExpression c.rest then expression raw else reference raw

theorem run_slotInside (raw : Bool) (c : Cursor) :
    (slotInside raw).run c =
      if beginsExpression c.rest then (expression raw).run c else (reference raw).run c := by
  show (if beginsExpression c.rest then expression raw else reference raw : Reader Slot).run c = _
  split <;> rfl

theorem finishes_slotInside (raw : Bool) : Finishes slotEnd (slotInside raw) :=
  .after advances_get fun _ => .ite (finishes_expression raw) (finishes_reference raw)

theorem closed_slotInside (raw : Bool) : Closed (slotInside raw) := by
  refine ⟨fun {c s c'} h => ?_⟩
  obtain ⟨y, hy⟩ := (finishes_slotInside raw).finishes h
  have htaken : ∀ {z : Text}, c.rest = z ++ c'.rest → '}' ∈ z := by
    intro z hz
    obtain rfl : z = y ++ slotEnd :=
      List.append_cancel_right ((hz.symm.trans hy).trans (List.append_assoc ..).symm)
    simp [slotEnd]
  rw [run_slotInside] at h
  by_cases hb : beginsExpression c.rest = true
  · rw [if_pos hb] at h
    obtain ⟨z, hz, hends, hzt⟩ := (closed_expression raw).takes h
    rw [hz, beginsExpression_append (htaken hz)] at hb
    refine ⟨z, hz, hends, fun r o => ?_⟩
    rw [run_slotInside, if_pos (by rw [beginsExpression_append (htaken hz)]; exact hb), hzt r o]
  · rw [if_neg hb] at h
    obtain ⟨z, hz, hends, hzt⟩ := (closed_reference raw).takes h
    rw [hz, beginsExpression_append (htaken hz)] at hb
    refine ⟨z, hz, hends, fun r o => ?_⟩
    rw [run_slotInside, if_neg (by rw [beginsExpression_append (htaken hz)]; exact hb), hzt r o]

theorem finishes_slot : Finishes slotEnd slot :=
  .after (advances_skip 2) fun _ => .after advances_skipSpace fun _ => .after (advances_eat _) fun raw =>
    .after advances_skipSpace fun _ => finishes_slotInside raw

theorem closed_slot : Closed slot :=
  .after (local_skip 2) fun _ => .after local_skipSpace fun _ => .after (local_eat _) fun raw =>
    .after local_skipSpace fun _ => closed_slotInside raw

/-! ## Definition tags -/

theorem local_parameter (defaulted : Bool) : Local (parameter defaulted) :=
  local_skipSpace.bind fun _ => (local_name _).bind fun _ => local_skipSpace.bind fun _ =>
    (local_eat _).bind fun _ => .ite
      (local_skipSpace.bind fun _ => (local_value _).bind fun _ =>
        local_skipSpace.bind fun _ => local_pure _)
      (.ite (local_fail _) (local_pure _))

theorem parametersFrom_last {defaulted : Bool} {c next : Cursor} {q : Text × Option Value}
    {tail : Text} (hq : (parameter defaulted).run c = .ok (q, next))
    (hr : next.rest = ')' :: tail) :
    parametersFrom defaulted c = .ok (Params.add q {}, next.advance 1) := by
  rw [parametersFrom]
  split
  next e he => rw [hq] at he; cases he
  next q' next' hq' =>
    obtain ⟨rfl, rfl⟩ := Prod.mk.inj (Except.ok.inj (hq.symm.trans hq'))
    split
    next hr' => rw [hr] at hr'; cases hr'
    next ch tail' hr' =>
      obtain ⟨rfl, rfl⟩ := List.cons.inj (hr.symm.trans hr')
      rfl

theorem parametersFrom_cons {defaulted : Bool} {c next last : Cursor} {q : Text × Option Value}
    {ps : Params} {tail : Text} (hq : (parameter defaulted).run c = .ok (q, next))
    (hr : next.rest = ',' :: tail)
    (hps : parametersFrom (defaulted || q.2.isSome) (next.advance 1) = .ok (ps, last)) :
    parametersFrom defaulted c = .ok (Params.add q ps, last) := by
  rw [parametersFrom]
  split
  next e he => rw [hq] at he; cases he
  next q' next' hq' =>
    obtain ⟨rfl, rfl⟩ := Prod.mk.inj (Except.ok.inj (hq.symm.trans hq'))
    split
    next hr' => rw [hr] at hr'; cases hr'
    next ch tail' hr' =>
      obtain ⟨rfl, rfl⟩ := List.cons.inj (hr.symm.trans hr')
      rw [if_pos rfl, hps]

theorem takes_parametersFrom_last {defaulted : Bool} {q : Text × Option Value} {y r : Text}
    (hq : Takes (parameter defaulted) y q (')' :: r)) :
    Takes (parametersFrom defaulted) (y ++ [')']) (Params.add q {}) r := by
  intro o
  have h := parametersFrom_last (hq o) rfl
  rw [List.append_assoc, List.singleton_append, StateT.run, h]
  simp [Cursor.advance, Nat.add_assoc]

theorem takes_parametersFrom_cons {defaulted : Bool} {q : Text × Option Value} {ps : Params}
    {y z r : Text} (hq : Takes (parameter defaulted) y q (',' :: (z ++ r)))
    (hps : Takes (parametersFrom (defaulted || q.2.isSome)) z ps r) :
    Takes (parametersFrom defaulted) (y ++ ',' :: z) (Params.add q ps) r := by
  intro o
  have hlater := hps (o + Text.size y + Char.utf8Size ',')
  have hnext : parametersFrom (defaulted || q.2.isSome)
      (Cursor.advance ⟨o + Text.size y, ',' :: (z ++ r)⟩ 1) =
      .ok (ps, ⟨o + Text.size y + Char.utf8Size ',' + Text.size z, r⟩) := by
    simpa [Cursor.advance, StateT.run] using hlater
  have h := parametersFrom_cons (hq o) rfl hnext
  rw [List.append_assoc, List.cons_append, StateT.run, h]
  simp [Nat.add_assoc]

theorem closed_parametersFrom (defaulted : Bool) :
    Closed (parametersFrom defaulted : Reader Params) := by
  refine ⟨fun {c ps c'} h => ?_⟩
  simp only [StateT.run] at h
  fun_induction parametersFrom defaulted c generalizing ps with
  | case1 => cases h
  | case2 => cases h
  | case3 => cases h
  | case4 defaulted c p next hp tail qs last hn hr ih =>
      obtain ⟨rfl, rfl⟩ := Prod.mk.inj (Except.ok.inj h)
      obtain ⟨y, hy, hyt⟩ := (local_parameter _).takes hp
      obtain ⟨z, hz, hends, hzt⟩ := ih hn
      obtain rfl : tail = z ++ last.rest := by simpa [Cursor.advance, hr] using hz
      have hcomma : Ends (',' :: z) := hends.append [',']
      refine ⟨y ++ ',' :: z, by simp [hy, hr], hcomma.append y, fun r => ?_⟩
      exact takes_parametersFrom_cons (hyt _ (by rw [hr]; exact hcomma.alike last.rest r)) (hzt r)
  | case5 defaulted c p next hp tail hr hc =>
      obtain ⟨rfl, rfl⟩ := Prod.mk.inj (Except.ok.inj h)
      obtain ⟨y, hy, hyt⟩ := (local_parameter _).takes hp
      have hparen : Ends [')'] := ⟨by simp, by simp⟩
      refine ⟨y ++ [')'], by simp [hy, hr, Cursor.advance], hparen.append y, fun r => ?_⟩
      exact takes_parametersFrom_last (hyt _ (by rw [hr]; exact hparen.alike tail r))
  | case6 => cases h

theorem closed_parameters : Closed parameters :=
  .after (local_skip 1) fun _ => .after local_skipSpace fun _ =>
    closed_eat_bind (by decide) rfl (closed_parametersFrom _)

theorem closed_closeBrace : Closed closeBrace := closed_demand (by decide) _

/-- A reader that goes by the next character is closed if it is so with each next character. -/
theorem closed_peek_bind {f : Option Char → Reader α}
    (hf : ∀ {c : Cursor} {a : α} {c' : Cursor}, (f c.rest.head?).run c = .ok (a, c') →
      ∃ z, c.rest = z ++ c'.rest ∧ Ends z ∧ ∀ r, Takes (f c.rest.head?) z a r) :
    Closed (peek >>= f) := by
  refine ⟨fun {c a c'} h => ?_⟩
  obtain ⟨z, hz, hends, hzt⟩ := hf (c := c) h
  refine ⟨z, hz, hends, fun r => ?_⟩
  have hpeek : Takes peek [] c.rest.head? (z ++ r) := by
    intro o
    show Except.ok ((z ++ r).head?, (⟨o, z ++ r⟩ : Cursor)) = _
    rw [hz, (hends.alike c'.rest r).1]
    rfl
  exact hpeek.bind (hzt r)

theorem closed_form : Closed form := by
  apply closed_peek_bind
  intro c f c' h
  cases hc : c.rest.head? with
  | none => rw [hc] at h; cases h
  | some ch =>
      rw [hc] at h
      by_cases hequals : ch = '='
      · subst hequals
        have hsingle : Closed (do
            skip 1
            skipSpace
            let v ← value []
            skipSpace
            closeBrace
            return .single v : Reader Form) :=
          .after (local_skip 1) fun _ => .after local_skipSpace fun _ =>
            .after (local_value _) fun v => .after local_skipSpace fun _ =>
              closed_closeBrace.map fun _ => Form.single v
        exact hsingle.takes h
      · by_cases hparen : ch = '('
        · subst hparen
          have hblock : Closed (do
              let ps ← parameters
              skipSpace
              closeBrace
              return .block ps : Reader Form) :=
            .after closed_parameters.toLocal fun ps => .after local_skipSpace fun _ =>
              closed_closeBrace.map fun _ => Form.block ps
          exact hblock.takes h
        · by_cases hbrace : ch = '}'
          · subst hbrace
            obtain ⟨tail, htail⟩ := List.head?_eq_some_iff.1 hc
            obtain ⟨rfl, rfl⟩ := Prod.mk.inj (Except.ok.inj h)
            refine ⟨['}'], by simp [Cursor.advance, htail], ⟨by simp, by simp⟩, fun r o => ?_⟩
            show Except.ok (_, Cursor.advance ⟨o, '}' :: r⟩ 1) = _
            simp [Cursor.advance]
          · split at h
            next heq => exact absurd (Option.some.inj heq) hequals
            next heq => exact absurd (Option.some.inj heq) hparen
            next heq => exact absurd (Option.some.inj heq) hbrace
            next => cases h

theorem finishes_closeBrace : Finishes ['}'] closeBrace := by
  refine ⟨fun {c a c'} h => ?_⟩
  obtain ⟨found, c₁, h₁, h₂⟩ := exists_of_run_bind h
  simp only [eat, StateT.run] at h₁
  by_cases hc : c.rest.head? = some '}'
  · rw [if_pos hc] at h₁
    obtain ⟨rfl, rfl⟩ := Prod.mk.inj (Except.ok.inj h₁)
    obtain ⟨-, rfl⟩ := Prod.mk.inj (Except.ok.inj h₂)
    obtain ⟨tail, htail⟩ := List.head?_eq_some_iff.1 hc
    exact ⟨[], by simp [Cursor.advance, htail]⟩
  · rw [if_neg hc] at h₁
    obtain ⟨rfl, rfl⟩ := Prod.mk.inj (Except.ok.inj h₁)
    cases h₂

theorem finishes_form : Finishes ['}'] form := by
  refine ⟨fun {c f c'} h => ?_⟩
  obtain ⟨o, c₁, h₁, h₂⟩ := exists_of_run_bind h
  obtain ⟨rfl, rfl⟩ := Prod.mk.inj (Except.ok.inj h₁)
  split at h₂
  · have hsingle : Finishes ['}'] (do
        skip 1
        skipSpace
        let v ← value []
        skipSpace
        closeBrace
        return .single v : Reader Form) :=
      .after (advances_skip 1) fun _ => .after advances_skipSpace fun _ =>
        .after (advances_value _) fun v => .after advances_skipSpace fun _ =>
          finishes_closeBrace.map fun _ => Form.single v
    exact hsingle.finishes h₂
  · have hblock : Finishes ['}'] (do
        let ps ← parameters
        skipSpace
        closeBrace
        return .block ps : Reader Form) :=
      .after advances_parameters fun ps => .after advances_skipSpace fun _ =>
        finishes_closeBrace.map fun _ => Form.block ps
    exact hblock.finishes h₂
  next hc =>
    obtain ⟨tail, htail⟩ := List.head?_eq_some_iff.1 hc
    obtain ⟨-, rfl⟩ := Prod.mk.inj (Except.ok.inj h₂)
    exact ⟨[], by simp [Cursor.advance, htail]⟩
  · cases h₂

theorem finishes_opening : Finishes ['}'] opening :=
  .after (advances_skip 1) fun _ => .after advances_skipBlanks fun _ =>
    .after (advances_eat _) fun _ => .after advances_skipBlanks fun _ =>
      .after (advances_name _) fun _ => .after advances_skipSpace fun _ => finishes_form.map _

theorem closed_opening : Closed opening :=
  .after (local_skip 1) fun _ => .after local_skipBlanks fun _ => .after (local_eat _) fun _ =>
    .after local_skipBlanks fun _ => .after (local_name _) fun _ => .after local_skipSpace fun _ =>
      closed_form.map _

def closingName : Reader Text := do
  skip 1
  skipBlanks
  let _ ← eat '/'
  skipBlanks
  let n ← name [identifier]
  skipBlanks
  closeBrace
  return n

theorem closed_closingName : Closed closingName :=
  .after (local_skip 1) fun _ => .after local_skipBlanks fun _ => .after (local_eat _) fun _ =>
    .after local_skipBlanks fun _ => .after (local_name _) fun _ => .after local_skipBlanks fun _ =>
      closed_closeBrace.map _

theorem finishes_closingName : Finishes ['}'] closingName :=
  .after (advances_skip 1) fun _ => .after advances_skipBlanks fun _ =>
    .after (advances_eat _) fun _ => .after advances_skipBlanks fun _ =>
      .after (advances_name _) fun _ => .after advances_skipBlanks fun _ =>
        finishes_closeBrace.map _

end Stencil.Reader
