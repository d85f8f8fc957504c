import Stencil.Proofs.Tag.Written

/-! # Written slots that are not read

A number that is not finite is written as a name, or as a name behind a minus sign. At the place of an
argument this is no literal, so that a slot with such an argument is rejected once it is written out
(`fails_slot_source`). -/
set_option autoImplicit false
namespace Stencil

namespace Reader

variable {α β : Type}

/-! ## Failing readers -/

/-- The reader fails on the text, at every offset. -/
def Fails (p : Reader α) (t : Text) : Prop := ∀ o, ∃ e, p.run ⟨o, t⟩ = .error e

theorem Fails.bind {p : Reader α} {t : Text} (h : Fails p t) (f : α → Reader β) :
    Fails (p >>= f) t := by
  intro o
  obtain ⟨e, he⟩ := h o
  exact ⟨e, by rw [StateT.run_bind, he]; rfl⟩

theorem Takes.fails {p : Reader α} {f : α → Reader β} {z r : Text} {a : α} (hp : Takes p z a r)
    (hf : Fails (f a) r) : Fails (p >>= f) (z ++ r) := by
  intro o
  obtain ⟨e, he⟩ := hf (o + Text.size z)
  exact ⟨e, by rw [run_bind_of (hp o), he]⟩

theorem fails_fail (expected : List Text) (t : Text) : Fails (fail expected : Reader α) t :=
  fun o => ⟨(Cursor.mk o t).unexpected expected, rfl⟩

theorem fails_peek_bind {f : Option Char → Reader α} {t : Text} (h : Fails (f t.head?) t) :
    Fails (peek >>= f) t :=
  Takes.fails (z := []) (fun _ => rfl) h

theorem fails_demand {ch : Char} {t : Text} (h : t.head? ≠ some ch) (expected : List Text) :
    Fails (demand ch expected) t :=
  Takes.fails (z := []) (takes_eat_of_ne h) (fails_fail expected t)

/-! ## Numbers that are not finite -/

theorem isDigit_of_isNameStart {c : Char} (h : isNameStart c = true) : c.isDigit = false := by
  rw [Bool.eq_false_iff]
  intro hdigit
  rw [isNameStart_of_isDigit hdigit] at h
  cases h

theorem formatNumber_of_not_finite {x : Float} (h : ¬ Decimal.isFinite x = true) :
    IsName (formatNumber x) ∨ ∃ n, formatNumber x = '-' :: n ∧ IsName n := by
  have hinteger : Decimal.integer? x = none := by
    unfold Decimal.isFinite at h
    unfold Decimal.integer?
    split
    next hx => rw [hx] at h; exact absurd rfl h
    next => rfl
  have htext : formatNumber x = Decimal.text x := by rw [formatNumber, hinteger]
  rw [htext]
  unfold Decimal.isFinite at h
  unfold Decimal.text
  split
  · exact .inl ⟨'N', _, rfl, by decide, List.all_eq_true.1 (by decide)⟩
  next negative _ =>
    cases negative with
    | false => exact .inl ⟨'i', _, rfl, by decide, List.all_eq_true.1 (by decide)⟩
    | true => exact .inr ⟨_, rfl, 'i', _, rfl, by decide, List.all_eq_true.1 (by decide)⟩
  next hx => rw [hx] at h; exact absurd rfl h

/-- What is written for a value that cannot be read back. -/
theorem literal_of_not_writable {v : Value} (h : ¬ Writable v) :
    IsName v.literal ∨ ∃ n, v.literal = '-' :: n ∧ IsName n := by
  cases v with
  | text t => exact absurd trivial h
  | number x => exact formatNumber_of_not_finite h

theorem fails_numeral {n : Text} (hn : IsName n) (negative : Bool) (r : Text) :
    Fails (numeral negative) (n ++ r) := by
  obtain ⟨c, u, rfl, hc, -⟩ := hn
  intro o
  have htake : (c :: u ++ r).takeWhile Char.isDigit = [] := by
    rw [List.cons_append, List.takeWhile_cons_of_neg (by simp [isDigit_of_isNameStart hc])]
  have hdrop : (c :: u ++ r).dropWhile Char.isDigit = c :: (u ++ r) := by
    rw [List.cons_append, List.dropWhile_cons_of_neg (by simp [isDigit_of_isNameStart hc])]
  have hpoint : c ≠ '.' := by
    rintro rfl
    exact absurd hc (by decide)
  have hsplit : Decimal.splitNumeral (c :: u ++ r) = ([], [], c :: (u ++ r)) := by
    rw [Decimal.splitNumeral, htake, hdrop]
    split
    next heq => exact absurd (List.cons.inj heq).1 hpoint
    next => rfl
  exact ⟨_, by simp only [numeral, StateT.run, hsplit]; rfl⟩

theorem fails_value {v : Value} (hv : ¬ Writable v) (also : List Text) (r : Text) :
    Fails (value also) (v.literal ++ r) := by
  refine fails_peek_bind ?_
  rcases literal_of_not_writable hv with hn | ⟨n, hminus, hn⟩
  · obtain ⟨c, u, hcu, hc, -⟩ := hn
    have hquote : c ≠ '"' := by
      rintro rfl
      exact absurd hc (by decide)
    have hnumber : ¬ (c = '-' ∨ c.isDigit = true) := by
      rintro (rfl | hdigit)
      · exact absurd hc (by decide)
      · rw [isDigit_of_isNameStart hc] at hdigit
        cases hdigit
    rw [hcu]
    show Fails (if c = '"' then _ else _) _
    rw [if_neg hquote, if_neg hnumber]
    exact fails_fail _ _
  · rw [hminus]
    show Fails (if '-' = '"' then _ else _) _
    rw [if_neg (by decide), if_pos (.inl rfl)]
    have hnumber : Fails number (['-'] ++ (n ++ r)) :=
      (takes_eat '-' (n ++ r)).fails (fails_numeral hn true r)
    exact hnumber.bind _

/-! ## Arguments -/

def EndsArgument (r : Text) : Prop :=
  ∀ c ∈ r.head?, isNameChar c = false ∧ isTagSpace c = false ∧ c ≠ '='

theorem fails_argument {a : Argument} (hname : ∀ n ∈ a.name, IsName n) (hv : ¬ Writable a.value)
    {r : Text} (hr : EndsArgument r) : Fails argument (a.source ++ r) := by
  obtain ⟨name, v⟩ := a
  refine fails_peek_bind ?_
  cases name with
  | none =>
      rcases literal_of_not_writable hv with hn | ⟨n, hminus, hn⟩
      · -- a name, and then the equals sign is missing
        obtain ⟨c, u, hcu, hc, -⟩ := id hn
        have hsource : (Argument.mk none v).source = c :: u := hcu
        rw [hcu] at hn
        rw [hsource]
        show Fails (if isNameStart c then _ else _) (c :: u ++ r)
        rw [if_pos hc]
        have hequals : r.head? ≠ some '=' := fun heq => (hr '=' heq).2.2 rfl
        refine (takes_takeWhile hn.isNameChar fun d hd => (hr d hd).1).fails ?_
        refine Takes.fails (z := []) (takes_skipSpace (by simp) fun d hd => (hr d hd).2.1) ?_
        exact (fails_demand hequals _).bind _
      · have hvalue := fails_value hv ["identifier".toList] r
        have hsource : (Argument.mk none v).source = '-' :: n := hminus
        rw [hminus] at hvalue
        rw [hsource]
        show Fails (if isNameStart '-' then _ else _) ('-' :: n ++ r)
        rw [if_neg (by decide)]
        exact hvalue.bind _
  | some n =>
      have hn : IsName n := hname n rfl
      obtain ⟨c, u, hcu, hc, -⟩ := id hn
      have hspace : ∀ d ∈ (v.literal ++ r).head?, isTagSpace d = false := by
        rcases literal_of_not_writable hv with ⟨d, w, hdw, hd, -⟩ | ⟨m, hminus, -⟩
        · rw [hdw]
          exact forall_mem_head? (isTagSpace_eq_false (isNameChar_of_isNameStart hd))
        · rw [hminus]
          exact forall_mem_head? (by decide)
      have hsource : (Argument.mk (some n) v).source ++ r = n ++ ('=' :: (v.literal ++ r)) := by
        simp [Argument.source]
      rw [hsource]
      have hhead : (n ++ ('=' :: (v.literal ++ r))).head? = some c := by rw [hcu]; rfl
      rw [hhead]
      show Fails (if isNameStart c then _ else _) _
      rw [if_pos hc]
      refine (takes_takeWhile hn.isNameChar (forall_mem_head? (by decide))).fails ?_
      refine Takes.fails (z := []) (takes_skipSpace (by simp) (forall_mem_head? (by decide))) ?_
      refine Takes.fails (z := ['=']) (takes_demand '=' _ _) ?_
      refine Takes.fails (z := []) (takes_skipSpace (by simp) hspace) ?_
      exact (fails_value hv [] r).bind _

theorem exists_source_cons {a : Argument} (hname : ∀ n ∈ a.name, IsName n) :
    ∃ c u, a.source = c :: u ∧ isTagSpace c = false ∧ c ≠ ')' := by
  by_cases hv : Writable a.value
  · exact WritableArgument.exists_cons ⟨hname, hv⟩
  · have hfront : ∀ {n : Text}, IsName n → ∃ c u, n = c :: u ∧ isTagSpace c = false ∧ c ≠ ')' := by
      rintro n ⟨c, u, rfl, hc, -⟩
      refine ⟨c, u, rfl, isTagSpace_eq_false (isNameChar_of_isNameStart hc), ?_⟩
      rintro rfl
      exact absurd hc (by decide)
    obtain ⟨name, v⟩ := a
    cases name with
    | none =>
        rcases literal_of_not_writable hv with hn | ⟨n, hminus, -⟩
        · exact hfront hn
        · exact ⟨'-', n, hminus, by decide, by decide⟩
    | some n =>
        obtain ⟨c, u, hcu, hspace, hparen⟩ := hfront (hname n rfl)
        exact ⟨c, u ++ '=' :: v.literal, by simp [Argument.source, hcu], hspace, hparen⟩

theorem fails_spacedArgument {a : Argument} (hname : ∀ n ∈ a.name, IsName n)
    (hv : ¬ Writable a.value) {w r : Text} (hw : ∀ c ∈ w, isTagSpace c = true)
    (hr : EndsArgument r) : Fails spacedArgument (w ++ (a.source ++ r)) := by
  have hfront : ∀ c ∈ (a.source ++ r).head?, isTagSpace c = false := by
    obtain ⟨c, u, hcu, hspace, -⟩ := exists_source_cons hname
    rw [hcu]
    exact forall_mem_head? hspace
  exact (takes_skipSpace hw hfront).fails ((fails_argument hname hv hr).bind _)

theorem fails_argumentsFrom_of_first {t : Text} (h : Fails spacedArgument t) :
    Fails argumentsFrom t := by
  intro o
  obtain ⟨e, he⟩ := h o
  refine ⟨e, ?_⟩
  rw [StateT.run, argumentsFrom]
  split
  next e' he' =>
    obtain rfl := Except.error.inj (he.symm.trans he')
    rfl
  next a next ha => rw [he] at ha; cases ha

theorem fails_argumentsFrom_of_later {a : Argument} {y t : Text}
    (ha : Takes spacedArgument y a (',' :: t)) (h : Fails argumentsFrom t) :
    Fails argumentsFrom (y ++ ',' :: t) := by
  intro o
  obtain ⟨e, he⟩ := h (o + Text.size y + Char.utf8Size ',')
  have hnext : argumentsFrom (Cursor.advance ⟨o + Text.size y, ',' :: t⟩ 1) = .error e := by
    simpa [Cursor.advance, StateT.run] using he
  refine ⟨e, ?_⟩
  rw [StateT.run, argumentsFrom]
  split
  next e' he' => rw [ha o] at he'; cases he'
  next a' next ha' =>
    obtain ⟨rfl, rfl⟩ := Prod.mk.inj (Except.ok.inj ((ha o).symm.trans ha'))
    simp only [if_true, hnext]

/-- The first argument that cannot be read back is rejected, wherever it stands among the arguments. -/
theorem fails_argumentsFrom {r : Text} : ∀ {as : List Argument} {w : Text},
    (∀ a ∈ as, ∀ n ∈ a.name, IsName n) → (∃ a ∈ as, ¬ Writable a.value) →
    (∀ c ∈ w, isTagSpace c = true) →
    Fails argumentsFrom (w ++ (Text.join ", ".toList (as.map Argument.source) ++ ')' :: r)) := by
  intro as
  induction as with
  | nil => intro w _ hbad; exact absurd hbad (by simp)
  | cons a as ih =>
      intro w hnames hbad hw
      have hname := hnames a (List.mem_cons_self ..)
      have htext : ∃ d v, Text.join ", ".toList ((a :: as).map Argument.source) ++ ')' :: r =
          a.source ++ d :: v ∧ (d = ',' ∨ d = ')') := by
        cases as with
        | nil => exact ⟨')', r, by simp [Text.join, List.intercalate], .inr rfl⟩
        | cons b as => exact ⟨',', _, by rw [join_source_cons, List.append_assoc]; rfl, .inl rfl⟩
      by_cases hv : Writable a.value
      · have hlater : ∃ b ∈ as, ¬ Writable b.value := by
          obtain ⟨b, hb, hbv⟩ := hbad
          rcases List.mem_cons.1 hb with rfl | hb
          · exact absurd hv hbv
          · exact ⟨b, hb, hbv⟩
        have hrest := ih (w := [' ']) (fun b hb => hnames b (List.mem_cons_of_mem _ hb)) hlater
          (by simp [isTagSpace])
        cases as with
        | nil => exact absurd hlater (by simp)
        | cons b as =>
            have hfirst := takes_spacedArgument (isArgument_source ⟨hname, hv⟩) hw spaces_nil rfl
              (r := ',' :: ([' '] ++ (Text.join ", ".toList ((b :: as).map Argument.source) ++ ')' :: r)))
              (forall_mem_head? (by decide)) (forall_mem_head? (by decide))
            have h := fails_argumentsFrom_of_later hfirst hrest
            rw [join_source_cons]
            simpa using h
      · obtain ⟨d, v, htext, hd⟩ := htext
        rw [htext]
        have hends : EndsArgument (d :: v) := by
          rcases hd with rfl | rfl
          · exact forall_mem_head? (by decide)
          · exact forall_mem_head? (by decide)
        exact fails_argumentsFrom_of_first (fails_spacedArgument hname hv hw hends)

/-! ## Slots -/

/-- The slot refers to a name, and one of its arguments cannot be read back. -/
def RejectedSlot (s : Slot) : Prop :=
  s.expr = none ∧ IsName s.name ∧ (∀ a ∈ s.args, ∀ n ∈ a.name, IsName n) ∧
    ∃ a ∈ s.args, ¬ Writable a.value

theorem fails_arguments {as : List Argument} (hnames : ∀ a ∈ as, ∀ n ∈ a.name, IsName n)
    (hbad : ∃ a ∈ as, ¬ Writable a.value) (r : Text) :
    Fails arguments ('(' :: (Text.join ", ".toList (as.map Argument.source) ++ ')' :: r)) := by
  have hargs := fails_argumentsFrom (w := []) (r := r) hnames hbad (by simp)
  obtain ⟨a, as, rfl⟩ := List.exists_cons_of_ne_nil (List.ne_nil_of_mem hbad.choose_spec.1)
  obtain ⟨c, u, hcu, hspace, hparen⟩ := exists_source_cons (hnames a (List.mem_cons_self ..))
  obtain ⟨v, hv⟩ := exists_join_source_cons hcu as
  rw [hv] at hargs ⊢
  refine Takes.fails (z := ['(']) (takes_skip rfl _) ?_
  refine Takes.fails (z := []) (takes_skipSpace (by simp) (forall_mem_head? hspace)) ?_
  exact Takes.fails (z := []) (takes_eat_of_ne (by simpa using hparen)) hargs

theorem fails_slot_source {s : Slot} (h : RejectedSlot s) : Fails slot s.source := by
  obtain ⟨hexpr, hname, hnames, hbad⟩ := h
  have hne : s.args ≠ [] := List.ne_nil_of_mem hbad.choose_spec.1
  obtain ⟨c, u, hcu, hc, -⟩ := id hname
  generalize hjoined : Text.join ", ".toList (s.args.map Argument.source) ++ ')' :: slotEnd = joined
  have hargs : Fails arguments ('(' :: joined) := by
    rw [← hjoined]
    exact fails_arguments hnames hbad slotEnd
  have hsource : s.source =
      ['{', '{'] ++ ((if s.raw then ['@'] else []) ++ (s.name ++ '(' :: joined)) := by
    simp [Slot.source, hexpr, hne, slotEnd, ← hjoined]
  have hreference : Fails (reference s.raw) (s.name ++ '(' :: joined) := by
    refine (takes_name hname (forall_mem_head? (by decide)) _).fails ?_
    refine Takes.fails (z := []) (takes_skipSpace (by simp) (forall_mem_head? (by decide))) ?_
    refine fails_peek_bind ?_
    show Fails (if some '(' = some '(' then _ else _) _
    rw [if_pos rfl]
    exact hargs.bind _
  have hinside : Fails (slotInside s.raw) (s.name ++ '(' :: joined) := by
    intro o
    obtain ⟨e, he⟩ := hreference o
    have hbegins : beginsExpression (s.name ++ '(' :: joined) = false :=
      beginsExpression_name (w := []) hname spaces_nil (by decide) (by decide)
    exact ⟨e, by rw [run_slotInside, if_neg (by simp [hbegins]), he]⟩
  have hhead : ∀ d ∈ (s.name ++ '(' :: joined).head?, isTagSpace d = false := by
    rw [hcu]
    exact forall_mem_head? (isTagSpace_eq_false (isNameChar_of_isNameStart hc))
  have hat : (s.name ++ '(' :: joined).head? ≠ some '@' := by
    rw [hcu]
    intro heq
    obtain rfl : c = '@' := by simpa using heq
    exact absurd hc (by decide)
  have hlater : Fails (skipSpace >>= fun _ => slotInside s.raw) (s.name ++ '(' :: joined) :=
    Takes.fails (z := []) (takes_skipSpace (by simp) hhead) hinside
  rw [hsource]
  refine Takes.fails (takes_skip rfl _) ?_
  cases hraw : s.raw with
  | true =>
      rw [hraw] at hlater
      refine Takes.fails (z := []) (takes_skipSpace (by simp) (forall_mem_head? (by decide))) ?_
      exact Takes.fails (z := ['@']) (takes_eat '@' _) hlater
  | false =>
      rw [hraw] at hlater
      refine Takes.fails (z := []) (takes_skipSpace (by simp) hhead) ?_
      exact Takes.fails (z := []) (takes_eat_of_ne hat) hlater

end Reader

end Stencil
