import Stencil.Tag.Literal

/-! # How far readers look

Where a reader succeeds, its result depends on what it takes and on little of what stands behind:
on the next character, and on the one after a point, which a numeral may go on with (`Local`). A reader
that ends with a delimiter depends on nothing behind it (`Closed`). Both are closed under the ways of
composing readers. -/
set_option autoImplicit false
namespace Stencil

namespace Cursor

theorem advance_append (o : Nat) (z r : Text) :
    advance ⟨o, z ++ r⟩ z.length = ⟨o + Text.size z, r⟩ := by
  simp [advance]

theorem skipTo_append (o : Nat) (z r : Text) :
    skipTo ⟨o, z ++ r⟩ r.length = ⟨o + Text.size z, r⟩ := by
  have hlength : (z ++ r).length - r.length = z.length := by simp
  rw [skipTo, hlength, advance_append]

end Cursor

namespace Reader

variable {α β : Type}

/-- Before the text `r` the reader takes `z` and gives `a`, at every offset. -/
def Takes (p : Reader α) (z : Text) (a : α) (r : Text) : Prop :=
  ∀ o, p.run ⟨o, z ++ r⟩ = .ok (a, ⟨o + Text.size z, r⟩)

theorem takes_pure (a : α) (r : Text) : Takes (pure a) [] a r := fun _ => rfl

theorem Takes.bind {p : Reader α} {f : α → Reader β} {y z : Text} {a : α} {b : β} {r : Text}
    (hp : Takes p y a (z ++ r)) (hf : Takes (f a) z b r) : Takes (p >>= f) (y ++ z) b r := by
  intro o
  rw [StateT.run_bind, List.append_assoc, hp o]
  show (f a).run _ = _
  rw [hf, Text.size_append, Nat.add_assoc]

theorem Takes.map {p : Reader α} {z r : Text} {a : α} (h : Takes p z a r) (g : α → β) :
    Takes (p >>= fun a => pure (g a)) z (g a) r := by
  have hmap := Takes.bind (z := []) (f := fun a => pure (g a)) h (takes_pure (g a) r)
  rwa [List.append_nil] at hmap

theorem takes_eat (ch : Char) (r : Text) : Takes (eat ch) [ch] true r := by
  intro o
  show (if (ch :: r).head? = some ch then _ else _) = _
  rw [if_pos (List.head?_cons ..)]
  simp [Cursor.advance]

theorem takes_eat_of_ne {ch : Char} {r : Text} (hr : r.head? ≠ some ch) :
    Takes (eat ch) [] false r := by
  intro o
  show (if r.head? = some ch then _ else _) = _
  rw [if_neg hr]
  rfl

theorem takes_demand (ch : Char) (expected : List Text) (r : Text) :
    Takes (demand ch expected) [ch] () r := by
  have h := Takes.bind (z := []) (f := fun b => if b then return () else fail expected)
    (takes_eat ch r) (takes_pure () r)
  rwa [List.append_nil] at h

/-! ## Texts that look alike -/

/-- The texts begin with the same character, and with the same two if that is a point. -/
def Alike (r s : Text) : Prop :=
  r.head? = s.head? ∧ (r.head? = some '.' → r.tail.head? = s.tail.head?)

theorem Alike.append {r s : Text} (h : Alike r s) (z : Text) : Alike (z ++ r) (z ++ s) := by
  cases z with
  | nil => exact h
  | cons c z =>
      refine ⟨rfl, fun _ => ?_⟩
      cases z with
      | nil => exact h.1
      | cons d z => rfl

/-- Behind a text that is more than a point everything looks alike. -/
def Ends (z : Text) : Prop := z ≠ [] ∧ z ≠ ['.']

theorem Ends.alike {z : Text} (h : Ends z) (r s : Text) : Alike (z ++ r) (z ++ s) := by
  cases z with
  | nil => exact absurd rfl h.1
  | cons c z =>
      refine ⟨rfl, fun hc => ?_⟩
      cases z with
      | nil =>
          obtain rfl : c = '.' := by simpa using hc
          exact absurd rfl h.2
      | cons d z => rfl

theorem Ends.append {z : Text} (h : Ends z) (y : Text) : Ends (y ++ z) := by
  cases y with
  | nil => exact h
  | cons c y =>
      refine ⟨by simp, fun heq => h.1 ?_⟩
      simp only [List.cons_append, List.cons.injEq, List.append_eq_nil_iff] at heq
      exact heq.2.2

/-! ## Local and closed readers -/

/-- A success of the reader is one before every text that looks like the one behind it. -/
structure Local (p : Reader α) : Prop where
  takes : ∀ {c : Cursor} {a : α} {c' : Cursor}, p.run c = .ok (a, c') →
    ∃ z, c.rest = z ++ c'.rest ∧ ∀ r, Alike c'.rest r → Takes p z a r

structure Closed (p : Reader α) : Prop where
  takes : ∀ {c : Cursor} {a : α} {c' : Cursor}, p.run c = .ok (a, c') →
    ∃ z, c.rest = z ++ c'.rest ∧ Ends z ∧ ∀ r, Takes p z a r

theorem Closed.toLocal {p : Reader α} (h : Closed p) : Local p := by
  refine ⟨fun {c a c'} hp => ?_⟩
  obtain ⟨z, hz, -, ht⟩ := h.takes hp
  exact ⟨z, hz, fun r _ => ht r⟩

theorem exists_of_run_bind {p : Reader α} {f : α → Reader β} {c c' : Cursor} {b : β}
    (h : (p >>= f).run c = .ok (b, c')) :
    ∃ a c₁, p.run c = .ok (a, c₁) ∧ (f a).run c₁ = .ok (b, c') := by
  rw [StateT.run_bind] at h
  cases hp : p.run c with
  | error e => rw [hp] at h; cases h
  | ok r =>
      rw [hp] at h
      exact ⟨r.1, r.2, rfl, h⟩

theorem run_bind_of {p : Reader α} {c c' : Cursor} {a : α} (h : p.run c = .ok (a, c'))
    (f : α → Reader β) : (p >>= f).run c = (f a).run c' := by
  rw [StateT.run_bind, h]
  rfl

theorem local_pure (a : α) : Local (pure a : Reader α) := by
  refine ⟨fun {c b c'} h => ?_⟩
  obtain ⟨rfl, rfl⟩ := Prod.mk.inj (Except.ok.inj h)
  exact ⟨[], rfl, fun r _ => takes_pure _ r⟩

theorem Local.bind {p : Reader α} {f : α → Reader β} (hp : Local p) (hf : ∀ a, Local (f a)) :
    Local (p >>= f) := by
  refine ⟨fun {c b c'} h => ?_⟩
  obtain ⟨a, c₁, h₁, h₂⟩ := exists_of_run_bind h
  obtain ⟨y, hy, hpt⟩ := hp.takes h₁
  obtain ⟨z, hz, hft⟩ := (hf a).takes h₂
  refine ⟨y ++ z, by rw [hy, hz, List.append_assoc], fun r hr => ?_⟩
  exact (hpt (z ++ r) (by rw [hz]; exact hr.append z)).bind (hft r hr)

theorem Closed.after {p : Reader α} {f : α → Reader β} (hp : Local p) (hf : ∀ a, Closed (f a)) :
    Closed (p >>= f) := by
  refine ⟨fun {c b c'} h => ?_⟩
  obtain ⟨a, c₁, h₁, h₂⟩ := exists_of_run_bind h
  obtain ⟨y, hy, hpt⟩ := hp.takes h₁
  obtain ⟨z, hz, hends, hft⟩ := (hf a).takes h₂
  refine ⟨y ++ z, by rw [hy, hz, List.append_assoc], hends.append y, fun r => ?_⟩
  exact (hpt (z ++ r) (by rw [hz]; exact hends.alike _ _)).bind (hft r)

/-- The result of a closed reader may still be worked on. -/
theorem Closed.map {p : Reader α} (hp : Closed p) (g : α → β) :
    Closed (p >>= fun a => pure (g a)) := by
  refine ⟨fun {c b c'} h => ?_⟩
  obtain ⟨a, c₁, h₁, h₂⟩ := exists_of_run_bind h
  obtain ⟨rfl, rfl⟩ := Prod.mk.inj (Except.ok.inj h₂)
  obtain ⟨z, hz, hends, ht⟩ := hp.takes h₁
  exact ⟨z, hz, hends, fun r => (ht r).map g⟩

theorem Local.ite {C : Prop} [Decidable C] {p q : Reader α} (hp : Local p) (hq : Local q) :
    Local (if C then p else q) := by
  split <;> assumption

theorem Closed.ite {C : Prop} [Decidable C] {p q : Reader α} (hp : Closed p) (hq : Closed q) :
    Closed (if C then p else q) := by
  split <;> assumption

structure Finishes (mark : Text) (p : Reader α) : Prop where
  finishes : ∀ {c : Cursor} {a : α} {c' : Cursor}, p.run c = .ok (a, c') →
    ∃ y, c.rest = y ++ (mark ++ c'.rest)

theorem Finishes.after {mark : Text} {p : Reader α} {f : α → Reader β} (hp : Advances p)
    (hf : ∀ a, Finishes mark (f a)) : Finishes mark (p >>= f) := by
  refine ⟨fun {c b c'} h => ?_⟩
  obtain ⟨a, c₁, h₁, h₂⟩ := exists_of_run_bind h
  obtain ⟨x, hx, -⟩ := hp.reaches h₁
  obtain ⟨y, hy⟩ := (hf a).finishes h₂
  exact ⟨x ++ y, by rw [hx, hy, List.append_assoc]⟩

theorem Finishes.map {mark : Text} {p : Reader α} (hp : Finishes mark p) (g : α → β) :
    Finishes mark (p >>= fun a => pure (g a)) := by
  refine ⟨fun {c b c'} h => ?_⟩
  obtain ⟨a, c₁, h₁, h₂⟩ := exists_of_run_bind h
  obtain ⟨-, rfl⟩ := Prod.mk.inj (Except.ok.inj h₂)
  exact hp.finishes h₁

theorem Finishes.ite {mark : Text} {C : Prop} [Decidable C] {p q : Reader α}
    (hp : Finishes mark p) (hq : Finishes mark q) : Finishes mark (if C then p else q) := by
  split <;> assumption

/-! ## The basic readers -/

theorem local_fail (expected : List Text) : Local (fail expected : Reader α) := by
  refine ⟨fun {c a c'} h => ?_⟩
  cases h

theorem local_peek : Local peek := by
  refine ⟨fun {c a c'} h => ?_⟩
  obtain ⟨rfl, rfl⟩ := Prod.mk.inj (Except.ok.inj h)
  refine ⟨[], rfl, fun r hr o => ?_⟩
  show Except.ok (r.head?, (⟨o, r⟩ : Cursor)) = _
  rw [← hr.1]
  rfl

theorem local_skip (n : Nat) : Local (skip n) := by
  refine ⟨fun {c a c'} h => ?_⟩
  obtain ⟨-, rfl⟩ := Prod.mk.inj (Except.ok.inj h)
  refine ⟨c.rest.take n, by simp [Cursor.advance], fun r hr o => ?_⟩
  by_cases hn : n ≤ c.rest.length
  · have hlength : (c.rest.take n).length = n := by simp [hn]
    have hadvance := Cursor.advance_append o (c.rest.take n) r
    rw [hlength] at hadvance
    show Except.ok ((), Cursor.advance ⟨o, c.rest.take n ++ r⟩ n) = _
    rw [hadvance]
  · have hempty : c.rest.drop n = [] := List.drop_of_length_le (by omega)
    have hr : r = [] := by
      have hhead := hr.1
      simp only [Cursor.advance, hempty, List.head?_nil] at hhead
      exact List.head?_eq_none_iff.1 hhead.symm
    subst hr
    rw [List.take_of_length_le (by omega), List.append_nil]
    show Except.ok ((), Cursor.advance ⟨o, c.rest⟩ n) = _
    simp [Cursor.advance, hempty, List.take_of_length_le (Nat.le_of_not_le hn)]

theorem takeWhile_append_of_head? {p : Char → Bool} {z r : Text} (hz : ∀ c ∈ z, p c = true)
    (hr : ∀ c ∈ r.head?, p c = false) : (z ++ r).takeWhile p = z := by
  rw [List.takeWhile_append_of_pos hz]
  cases r with
  | nil => simp
  | cons c r => rw [List.takeWhile_cons_of_neg (by simp [hr c rfl]), List.append_nil]

theorem head?_dropWhile_eq_false (p : Char → Bool) (t : Text) :
    ∀ c ∈ (t.dropWhile p).head?, p c = false := by
  intro c hc
  have h := List.head?_dropWhile_not p t
  rw [hc] at h
  exact h

theorem eq_true_of_mem_takeWhile {p : Char → Bool} {t : Text} :
    ∀ c ∈ t.takeWhile p, p c = true :=
  List.all_eq_true.1 List.all_takeWhile

theorem rest_advance_takeWhile (p : Char → Bool) (c : Cursor) :
    (c.advance (c.rest.takeWhile p).length).rest = c.rest.dropWhile p := by
  show c.rest.drop (c.rest.takeWhile p).length = _
  conv => lhs; arg 2; rw [← List.takeWhile_append_dropWhile (p := p) (l := c.rest)]
  rw [List.drop_left]

theorem local_takeWhile (p : Char → Bool) : Local (takeWhile p) := by
  refine ⟨fun {c a c'} h => ?_⟩
  obtain ⟨rfl, rfl⟩ := Prod.mk.inj (Except.ok.inj h)
  have hrest : c.rest = c.rest.takeWhile p ++ c.rest.dropWhile p :=
    (List.takeWhile_append_dropWhile).symm
  rw [rest_advance_takeWhile]
  refine ⟨c.rest.takeWhile p, hrest, fun r hr o => ?_⟩
  have hr' : ∀ d ∈ r.head?, p d = false := by
    rw [← hr.1]
    exact head?_dropWhile_eq_false p c.rest
  have htake : (c.rest.takeWhile p ++ r).takeWhile p = c.rest.takeWhile p :=
    takeWhile_append_of_head? eq_true_of_mem_takeWhile hr'
  show Except.ok (_, Cursor.advance ⟨o, c.rest.takeWhile p ++ r⟩ _) = _
  rw [htake, Cursor.advance_append]

theorem local_eat (ch : Char) : Local (eat ch) := by
  refine ⟨fun {c a c'} h => ?_⟩
  simp only [eat, StateT.run] at h
  by_cases hc : c.rest.head? = some ch
  · rw [if_pos hc] at h
    obtain ⟨rfl, rfl⟩ := Prod.mk.inj (Except.ok.inj h)
    obtain ⟨tail, htail⟩ := List.head?_eq_some_iff.1 hc
    exact ⟨[ch], by simp [Cursor.advance, htail], fun r _ => takes_eat ch r⟩
  · rw [if_neg hc] at h
    obtain ⟨rfl, rfl⟩ := Prod.mk.inj (Except.ok.inj h)
    exact ⟨[], rfl, fun r hr => takes_eat_of_ne (by rw [← hr.1]; exact hc)⟩

theorem local_skipSpace : Local skipSpace :=
  (local_takeWhile _).bind fun _ => local_pure _

theorem local_skipBlanks : Local skipBlanks :=
  (local_takeWhile _).bind fun _ => local_pure _

theorem closed_demand {ch : Char} (hch : ch ≠ '.') (expected : List Text) :
    Closed (demand ch expected) := by
  refine ⟨fun {c a c'} h => ?_⟩
  obtain ⟨b, c₁, h₁, h₂⟩ := exists_of_run_bind h
  simp only [eat, StateT.run] at h₁
  by_cases hc : c.rest.head? = some ch
  · rw [if_pos hc] at h₁
    obtain ⟨rfl, rfl⟩ := Prod.mk.inj (Except.ok.inj h₁)
    obtain ⟨-, rfl⟩ := Prod.mk.inj (Except.ok.inj h₂)
    obtain ⟨tail, htail⟩ := List.head?_eq_some_iff.1 hc
    refine ⟨[ch], by simp [Cursor.advance, htail], ⟨by simp, by simpa using hch⟩, fun r o => ?_⟩
    exact takes_demand ch expected r o
  · rw [if_neg hc] at h₁
    obtain ⟨rfl, rfl⟩ := Prod.mk.inj (Except.ok.inj h₁)
    cases h₂

/-- A delimiter that may come at once. -/
theorem closed_eat_bind {ch : Char} (hch : ch ≠ '.') {f : Bool → Reader α} {a : α}
    (htrue : f true = pure a) (hfalse : Closed (f false)) : Closed (eat ch >>= f) := by
  refine ⟨fun {c b c'} h => ?_⟩
  obtain ⟨found, c₁, h₁, h₂⟩ := exists_of_run_bind h
  obtain ⟨y, hy, hyt⟩ := (local_eat ch).takes h₁
  cases found with
  | false =>
      obtain ⟨z, hz, hends, hzt⟩ := hfalse.takes h₂
      refine ⟨y ++ z, by rw [hy, hz, List.append_assoc], hends.append y, fun r => ?_⟩
      exact (hyt (z ++ r) (by rw [hz]; exact hends.alike _ _)).bind (hzt r)
  | true =>
      rw [htrue] at h₂
      obtain ⟨rfl, rfl⟩ := Prod.mk.inj (Except.ok.inj h₂)
      simp only [eat, StateT.run] at h₁
      by_cases hc : c.rest.head? = some ch
      · rw [if_pos hc] at h₁
        obtain ⟨-, rfl⟩ := Prod.mk.inj (Except.ok.inj h₁)
        obtain ⟨tail, htail⟩ := List.head?_eq_some_iff.1 hc
        refine ⟨[ch], by simp [Cursor.advance, htail], ⟨by simp, by simpa using hch⟩, fun r => ?_⟩
        have hpure : Takes (f true) [] a r := by
          rw [htrue]
          exact takes_pure a r
        have hboth := Takes.bind (z := []) (f := f) (takes_eat ch r) hpure
        rwa [List.append_nil] at hboth
      · rw [if_neg hc] at h₁
        cases (Prod.mk.inj (Except.ok.inj h₁)).1

theorem local_name (expected : List Text) : Local (name expected) :=
  local_peek.bind fun o => by
    cases o with
    | none => exact local_fail _
    | some c => exact .ite (local_takeWhile _) (local_fail _)

/-! ## Literals -/

theorem unquote?_cons {c : Char} (hc : c ≠ '\\') (t : Text) :
    unquote? (c :: t) =
      if c = '"' then some ([], t)
      else (unquote? t).map fun (s, after) => (c :: s, after) := by
  rw [unquote?]
  · exact fun h => absurd h hc
  · exact fun _ _ h => absurd h hc

theorem ne_backslash {c : Char} {t : Text} (h : c = '\\' → t = [] → False)
    (h' : ∀ (d : Char) (s : Text), c = '\\' → t = d :: s → False) : c ≠ '\\' := by
  intro hc
  cases t with
  | nil => exact h hc rfl
  | cons d s => exact h' d s hc rfl

theorem exists_of_unquote? : ∀ {t s after : Text}, unquote? t = some (s, after) →
    ∃ z, z ≠ [] ∧ t = z ++ after ∧ ∀ r, unquote? (z ++ r) = some (s, r) := by
  intro t
  fun_induction unquote? t with
  | case1 => intro s after h; cases h
  | case2 => intro s after h; cases h
  | case3 c rest ih =>
      intro s after h
      obtain ⟨⟨s', after'⟩, hs', heq⟩ := Option.map_eq_some_iff.1 h
      obtain ⟨rfl, rfl⟩ := Prod.mk.inj heq
      obtain ⟨z, -, rfl, hz⟩ := ih hs'
      refine ⟨'\\' :: c :: z, by simp, rfl, fun r => ?_⟩
      simp only [List.cons_append, unquote?, hz, Option.map_some]
  | case4 rest =>
      intro s after h
      obtain ⟨rfl, rfl⟩ := Prod.mk.inj (Option.some.inj h)
      refine ⟨['"'], by simp, rfl, fun r => ?_⟩
      rw [List.singleton_append, unquote?_cons (by decide), if_pos rfl]
  | case5 c rest h₁ h₂ hc ih =>
      intro s after h
      obtain ⟨⟨s', after'⟩, hs', heq⟩ := Option.map_eq_some_iff.1 h
      obtain ⟨rfl, rfl⟩ := Prod.mk.inj heq
      obtain ⟨z, -, rfl, hz⟩ := ih hs'
      refine ⟨c :: z, by simp, rfl, fun r => ?_⟩
      rw [List.cons_append, unquote?_cons (ne_backslash h₁ h₂), if_neg hc, hz]
      rfl

theorem closed_string : Closed string := by
  refine ⟨fun {c s c'} h => ?_⟩
  simp only [string, StateT.run] at h
  split at h
  next s' after hs =>
    obtain ⟨rfl, rfl⟩ := Prod.mk.inj (Except.ok.inj h)
    obtain ⟨z, hz, htail, hall⟩ := exists_of_unquote? hs
    obtain ⟨o, rest⟩ := c
    cases rest with
    | nil => simp [unquote?] at hs
    | cons q rest =>
        obtain rfl : rest = z ++ after := htail
        have hq : q :: (z ++ after) = (q :: z) ++ after := rfl
        rw [hq, Cursor.skipTo_append]
        refine ⟨q :: z, rfl, ⟨by simp, by simp [hz]⟩, fun r o' => ?_⟩
        simp only [string, StateT.run, List.cons_append, List.tail_cons, hall r]
        rw [← List.cons_append, Cursor.skipTo_append]
  next => cases h

theorem dropWhile_append_of_head? {p : Char → Bool} {z r : Text} (hz : ∀ c ∈ z, p c = true)
    (hr : ∀ c ∈ r.head?, p c = false) : (z ++ r).dropWhile p = r := by
  rw [List.dropWhile_append_of_pos hz]
  cases r with
  | nil => rfl
  | cons c r => rw [List.dropWhile_cons_of_neg (by simp [hr c rfl])]

/-- A numeral without a fraction. -/
theorem splitNumeral_whole {whole r : Text} (hw : ∀ c ∈ whole, c.isDigit = true)
    (hr : ∀ c ∈ r.head?, c.isDigit = false)
    (hpoint : r.head? = some '.' → ∀ c ∈ r.tail.head?, c.isDigit = false) :
    Decimal.splitNumeral (whole ++ r) = (whole, [], r) := by
  simp only [Decimal.splitNumeral, takeWhile_append_of_head? hw hr, dropWhile_append_of_head? hw hr]
  split
  next rest =>
    have hnone : rest.takeWhile Char.isDigit = [] :=
      takeWhile_append_of_head? (z := []) (by simp) (hpoint rfl)
    rw [if_pos hnone]
  next => rfl

theorem splitNumeral_fraction {whole fraction r : Text} (hw : ∀ c ∈ whole, c.isDigit = true)
    (hf : ∀ c ∈ fraction, c.isDigit = true) (hne : fraction ≠ [])
    (hr : ∀ c ∈ r.head?, c.isDigit = false) :
    Decimal.splitNumeral (whole ++ '.' :: (fraction ++ r)) = (whole, fraction, r) := by
  have hpoint : ∀ c ∈ ('.' :: (fraction ++ r)).head?, c.isDigit = false := by
    intro c hc
    obtain rfl : '.' = c := by simpa using hc
    decide
  simp only [Decimal.splitNumeral, takeWhile_append_of_head? hw hpoint,
    dropWhile_append_of_head? hw hpoint, takeWhile_append_of_head? hf hr,
    dropWhile_append_of_head? hf hr, if_neg hne]

theorem exists_of_splitNumeral {t whole fraction after : Text}
    (h : Decimal.splitNumeral t = (whole, fraction, after)) :
    ∃ z, t = z ++ after ∧ ∀ r, Alike after r →
      Decimal.splitNumeral (z ++ r) = (whole, fraction, r) := by
  have ht : t = t.takeWhile Char.isDigit ++ t.dropWhile Char.isDigit :=
    (List.takeWhile_append_dropWhile).symm
  have hw : ∀ c ∈ t.takeWhile Char.isDigit, c.isDigit = true := eq_true_of_mem_takeWhile
  have hnext := head?_dropWhile_eq_false Char.isDigit t
  simp only [Decimal.splitNumeral] at h
  split at h
  next rest hrest =>
    rw [hrest] at ht
    have hsplit : rest = rest.takeWhile Char.isDigit ++ rest.dropWhile Char.isDigit :=
      (List.takeWhile_append_dropWhile).symm
    by_cases hf : rest.takeWhile Char.isDigit = []
    · rw [if_pos hf, hrest] at h
      simp only [Prod.mk.injEq] at h
      obtain ⟨rfl, rfl, rfl⟩ := h
      refine ⟨t.takeWhile Char.isDigit, ht, fun r hr => splitNumeral_whole hw ?_ fun hpoint => ?_⟩
      · rw [← hr.1]
        intro c hc
        obtain rfl : '.' = c := by simpa using hc
        decide
      · rw [← hr.2 rfl, List.tail_cons]
        rw [hf, List.nil_append] at hsplit
        rw [hsplit]
        exact head?_dropWhile_eq_false Char.isDigit rest
    · rw [if_neg hf] at h
      simp only [Prod.mk.injEq] at h
      obtain ⟨rfl, rfl, rfl⟩ := h
      refine ⟨t.takeWhile Char.isDigit ++ '.' :: rest.takeWhile Char.isDigit, ?_, fun r hr => ?_⟩
      · rw [List.append_assoc, List.cons_append, ← hsplit]
        exact ht
      · rw [List.append_assoc, List.cons_append]
        refine splitNumeral_fraction hw eq_true_of_mem_takeWhile hf ?_
        rw [← hr.1]
        exact head?_dropWhile_eq_false Char.isDigit rest
  next hno =>
    simp only [Prod.mk.injEq] at h
    obtain ⟨rfl, rfl, rfl⟩ := h
    refine ⟨t.takeWhile Char.isDigit, ht, fun r hr => splitNumeral_whole hw ?_ fun hpoint => ?_⟩
    · rw [← hr.1]
      exact hnext
    · rw [← hr.1] at hpoint
      obtain ⟨rest, hrest⟩ := List.head?_eq_some_iff.1 hpoint
      exact absurd hrest (hno rest)

theorem local_numeral (negative : Bool) : Local (numeral negative) := by
  refine ⟨fun {c x c'} h => ?_⟩
  simp only [numeral, StateT.run] at h
  split at h
  · cases h
  next whole fraction after hne hsplit =>
    obtain ⟨rfl, rfl⟩ := Prod.mk.inj (Except.ok.inj h)
    obtain ⟨z, hz, hall⟩ := exists_of_splitNumeral hsplit
    obtain ⟨o, rest⟩ := c
    obtain rfl : rest = z ++ after := hz
    rw [Cursor.skipTo_append]
    refine ⟨z, rfl, fun r hr o' => ?_⟩
    simp only [numeral, StateT.run, hall r hr]
    rw [Cursor.skipTo_append]

theorem local_number : Local number := (local_eat _).bind local_numeral

theorem local_value (also : List Text) : Local (value also) :=
  local_peek.bind fun o => by
    cases o with
    | none => exact local_fail _
    | some c =>
        exact .ite (closed_string.toLocal.bind fun _ => local_pure _)
          (.ite (local_number.bind fun _ => local_pure _) (local_fail _))

end Reader
end Stencil
