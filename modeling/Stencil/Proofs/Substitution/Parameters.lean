import Stencil.Proofs.Substitution.Binding

/-! # What each parameter is bound to

A required parameter takes the positional value at its own position, and an optional one that no argument names
takes the next of those that are left (`bindRequired_cases`, `bindOptional_eq`). So the value of every parameter
follows from its place among the parameters, and binding fails exactly at the first required parameter that
gets nothing (`bind_parameters`). -/
set_option autoImplicit false
namespace Stencil.Definition

open Argument (positional named?)

/-- The parameter `n` at position `i` gets no value: there are not so many positional values, and no argument
has its name. -/
def Lacks (args : List Argument) (params : List Text) (values : List Value) (i : Nat) (n : Text) : Prop :=
  params[i]? = some n ∧ values.length ≤ i ∧ named? args n = none

def FirstLacks (args : List Argument) (params : List Text) (values : List Value) (i : Nat) (n : Text) : Prop :=
  Lacks args params values i n ∧ ∀ j m, Lacks args params values j m → i ≤ j

def requiredValue? (args : List Argument) (values : List Value) (i : Nat) (n : Text) : Option Value :=
  values[i]?.or (named? args n)

def unnamedBefore (args : List Argument) (params : List (Text × Value)) (j : Nat) : Nat :=
  (params.take j).countP fun p => (named? args p.1).isNone

/-- The value of the optional parameter `p` at position `j`, where `values` are left for these parameters. -/
def optionalValue (args : List Argument) (params : List (Text × Value)) (values : List Value) (j : Nat)
    (p : Text × Value) : Value :=
  (named? args p.1).getD (values[unnamedBefore args params j]?.getD p.2)

section

variable {d : Definition} {args : List Argument}

/-! ## Required parameters -/

theorem lacks_cons_succ {param : Text} {params : List Text} {values : List Value} {i : Nat} {n : Text} :
    Lacks args (param :: params) values (i + 1) n ↔ Lacks args params values.tail i n := by
  cases values <;> simp [Lacks]

theorem FirstLacks.cons {param : Text} {params : List Text} {values : List Value} {i : Nat} {n : Text}
    (h : FirstLacks args params values.tail i n)
    (hfirst : (requiredValue? args values 0 param).isSome = true) :
    FirstLacks args (param :: params) values (i + 1) n := by
  refine ⟨lacks_cons_succ.2 h.1, fun j m hj => ?_⟩
  cases j with
  | zero =>
      obtain ⟨hm, hvalues, hnone⟩ := hj
      obtain rfl : param = m := by simpa using hm
      obtain rfl : values = [] := List.eq_nil_of_length_eq_zero (Nat.le_zero.1 hvalues)
      simp [requiredValue?, hnone] at hfirst
  | succ j => exact Nat.succ_le_succ (h.2 j m (lacks_cons_succ.1 hj))

/-- Every required parameter gets its value, and the positional values behind them are left; or the first one
that gets none is reported. -/
theorem bindRequired_cases : ∀ (params : List Text) (values : List Value) (bound : Bindings),
    (∃ vs : List Value, vs.length = params.length ∧
      (∀ i n, params[i]? = some n → vs[i]? = requiredValue? args values i n) ∧
      d.bindRequired args params values bound =
        .ok ((params.zip vs).reverse ++ bound, values.drop params.length)) ∨
    ∃ i n, FirstLacks args params values i n ∧
      d.bindRequired args params values bound = .error (.missingParam d.name n) := by
  intro params
  induction params with
  | nil => exact fun values bound => .inl ⟨[], rfl, by simp, by simp [bindRequired]⟩
  | cons param params ih =>
      intro values bound
      -- one step: the first parameter gets `x`, and the others the values behind the first
      have hnext : ∀ {x : Value}, requiredValue? args values 0 param = some x →
          d.bindRequired args (param :: params) values bound =
            d.bindRequired args params values.tail ((param, x) :: bound) →
          (∃ vs : List Value, vs.length = (param :: params).length ∧
            (∀ i n, (param :: params)[i]? = some n → vs[i]? = requiredValue? args values i n) ∧
            d.bindRequired args (param :: params) values bound =
              .ok (((param :: params).zip vs).reverse ++ bound, values.drop (param :: params).length)) ∨
          ∃ i n, FirstLacks args (param :: params) values i n ∧
            d.bindRequired args (param :: params) values bound = .error (.missingParam d.name n) := by
        intro x hx hstep
        rcases ih values.tail ((param, x) :: bound) with
          ⟨vs, hlength, hvalues, hrun⟩ | ⟨i, n, hfirst, hrun⟩
        · refine .inl ⟨x :: vs, by simp [hlength], fun i n hi => ?_, ?_⟩
          · cases i with
            | zero =>
                obtain rfl : param = n := by simpa using hi
                simpa using hx.symm
            | succ i => simpa [requiredValue?] using hvalues i n (by simpa using hi)
          · rw [hstep, hrun]
            simp
        · exact .inr ⟨i + 1, n, hfirst.cons (by rw [hx]; rfl), hstep.trans hrun⟩
      cases values with
      | cons x values => exact hnext rfl rfl
      | nil =>
          cases hnamed : named? args param with
          | some x =>
              refine hnext (x := x) (by simpa [requiredValue?] using hnamed) ?_
              rw [bindRequired, hnamed]
              rfl
          | none =>
              refine .inr ⟨0, param, ⟨⟨rfl, Nat.le_refl 0, hnamed⟩, fun j m _ => Nat.zero_le j⟩, ?_⟩
              rw [bindRequired, hnamed]

/-! ## Optional parameters -/

theorem optionalValue_cons {param : Text × Value} {params : List (Text × Value)} {values : List Value}
    {j : Nat} {p : Text × Value} : optionalValue args (param :: params) values (j + 1) p =
      optionalValue args params (if (named? args param.1).isNone then values.tail else values) j p := by
  simp only [optionalValue, unnamedBefore, List.take_succ_cons, List.countP_cons]
  by_cases hnamed : (named? args param.1).isNone = true
  · simp [hnamed]
  · simp [hnamed]

/-- Every optional parameter gets its value. -/
theorem bindOptional_eq : ∀ (params : List (Text × Value)) (values : List Value) (bound : Bindings),
    ∃ vs : List Value, vs.length = params.length ∧
      (∀ j p, params[j]? = some p → vs[j]? = some (optionalValue args params values j p)) ∧
      (bindOptional args params values bound).1 = ((params.map Prod.fst).zip vs).reverse ++ bound := by
  intro params
  induction params with
  | nil => exact fun values bound => ⟨[], rfl, by simp, by simp [bindOptional]⟩
  | cons param params ih =>
      intro values bound
      obtain ⟨vs, hlength, hvalues, hrun⟩ :=
        ih (if (named? args param.1).isNone then values.tail else values)
          ((param.1, optionalValue args (param :: params) values 0 param) :: bound)
      refine ⟨optionalValue args (param :: params) values 0 param :: vs, by simp [hlength], fun j p hj => ?_, ?_⟩
      · cases j with
        | zero =>
            obtain rfl : param = p := by simpa using hj
            rfl
        | succ j =>
            rw [optionalValue_cons]
            exact hvalues j p (by simpa using hj)
      · have hstep : bindOptional args (param :: params) values bound =
            bindOptional args params (if (named? args param.1).isNone then values.tail else values)
              ((param.1, optionalValue args (param :: params) values 0 param) :: bound) := by
          obtain ⟨name, default⟩ := param
          cases hnamed : named? args name with
          | some x => simp [bindOptional, hnamed, optionalValue]
          | none => cases values <;> simp [bindOptional, hnamed, optionalValue, unnamedBefore]
        rw [hstep, hrun]
        simp

/-! ## All parameters -/

/-- Of the entries for one name the last one counts. -/
theorem lookup_reverse_zip : ∀ {names : List Text} {vs : List Value} {i : Nat} {n : Text},
    vs.length = names.length → names[i]? = some n → n ∉ names.drop (i + 1) →
    (names.zip vs).reverse.lookup n = vs[i]? := by
  intro names
  induction names with
  | nil => intro vs i n _ hi; simp at hi
  | cons m names ih =>
      intro vs i n hlength hi hlast
      obtain ⟨v, vs, rfl⟩ := List.exists_cons_of_length_eq_add_one hlength
      have hlength : vs.length = names.length := by simpa using hlength
      rw [List.zip_cons_cons, List.reverse_cons, List.lookup_append]
      cases i with
      | zero =>
          obtain rfl : m = n := by simpa using hi
          have hnone : (names.zip vs).reverse.lookup m = none := by
            rw [List.lookup_eq_none_iff]
            intro q hq
            have hmem : q.1 ∈ names := (List.of_mem_zip (a := q.1) (b := q.2) (List.mem_reverse.1 hq)).1
            rw [bne_iff_ne]
            rintro rfl
            exact hlast (by simpa using hmem)
          simp [hnone]
      | succ i =>
          have hi : names[i]? = some n := by simpa using hi
          rw [ih hlength hi (by simpa using hlast), List.getElem?_cons_succ]
          obtain ⟨hlt, -⟩ := List.getElem?_eq_some_iff.1 hi
          rw [List.getElem?_eq_getElem (by omega), Option.some_or]

theorem not_lacks_of_length {params : List Text} {values vs : List Value} (hlength : vs.length = params.length)
    (hvalues : ∀ i n, params[i]? = some n → vs[i]? = requiredValue? args values i n) (i : Nat) (n : Text) :
    ¬ Lacks args params values i n := by
  rintro ⟨hi, hle, hnone⟩
  obtain ⟨hlt, -⟩ := List.getElem?_eq_some_iff.1 hi
  have hnothing : requiredValue? args values i n = none := by
    rw [requiredValue?, List.getElem?_eq_none hle, hnone]
    rfl
  have hsome := hvalues i n hi
  rw [hnothing, List.getElem?_eq_none_iff] at hsome
  omega

/-- A binding that succeeds, as the values of the required parameters and of the optional ones. -/
theorem exists_of_bind_ok {bound : Bindings} {warnings : List Warning} (h : d.bind args = .ok (bound, warnings)) :
    ∃ vs ws : List Value, vs.length = d.required.length ∧ ws.length = d.optional.length ∧
      (∀ i n, d.required[i]? = some n → vs[i]? = requiredValue? args (positional args) i n) ∧
      (∀ j p, d.optional[j]? = some p →
        ws[j]? = some (optionalValue args d.optional ((positional args).drop d.required.length) j p)) ∧
      bound = ((d.required ++ d.optional.map Prod.fst).zip (vs ++ ws)).reverse := by
  rcases bindRequired_cases d.required (positional args) [] with
    ⟨vs, hvs, hrequired, hrun⟩ | ⟨i, n, -, hrun⟩
  · rw [bind, hrun] at h
    obtain ⟨rfl, -⟩ := Prod.mk.inj (Except.ok.inj h)
    obtain ⟨ws, hws, hoptional, heq⟩ := bindOptional_eq d.optional
      ((positional args).drop d.required.length) ((d.required.zip vs).reverse ++ [])
    refine ⟨vs, ws, hvs, hws, hrequired, hoptional, ?_⟩
    rw [heq, List.zip_append hvs.symm, List.reverse_append, List.append_nil]
  · rw [bind, hrun] at h
    cases h

theorem bind_error_iff {e : Error} : d.bind args = .error e ↔
    ∃ i n, FirstLacks args d.required (positional args) i n ∧ e = .missingParam d.name n := by
  rcases bindRequired_cases d.required (positional args) [] with
    ⟨vs, hvs, hrequired, hrun⟩ | ⟨i, n, hfirst, hrun⟩
  · refine iff_of_false ?_ ?_
    · rw [bind, hrun]
      intro h
      cases h
    · rintro ⟨i, n, hfirst, -⟩
      exact not_lacks_of_length hvs hrequired i n hfirst.1
  · rw [bind, hrun]
    constructor
    · intro h
      exact ⟨i, n, hfirst, (Except.error.inj h).symm⟩
    · rintro ⟨j, m, hother, rfl⟩
      obtain rfl : i = j := Nat.le_antisymm (hfirst.2 j m hother.1) (hother.2 i n hfirst.1)
      obtain rfl : n = m := Option.some.inj (hfirst.1.1.symm.trans hother.1.1)
      rfl

theorem exists_bind_error_iff :
    (∃ e, d.bind args = .error e) ↔ ∃ i n, Lacks args d.required (positional args) i n := by
  constructor
  · rintro ⟨e, h⟩
    obtain ⟨i, n, hfirst, -⟩ := bind_error_iff.1 h
    exact ⟨i, n, hfirst.1⟩
  · rintro ⟨i, n, hlacks⟩
    cases hbind : d.bind args with
    | error e => exact ⟨e, rfl⟩
    | ok r =>
        obtain ⟨bound, warnings⟩ := r
        obtain ⟨vs, ws, hvs, -, hrequired, -⟩ := exists_of_bind_ok hbind
        exact absurd hlacks (not_lacks_of_length hvs hrequired i n)

end

/-- Binding fails exactly if some required parameter gets no value, and reports the first one. Otherwise it
binds the parameters of the definition: a required one to the positional value at its position or else to the
last argument with its name, an optional one to the last argument with its name, or else to the positional
value behind those that the required parameters and the unnamed optional ones before it take, or else to its
default. Of the parameters with one name the last one counts. -/
theorem bind_parameters (d : Definition) (args : List Argument) :
    ((∃ e, d.bind args = .error e) ↔ ∃ i n, Lacks args d.required (positional args) i n) ∧
    (∀ e, d.bind args = .error e ↔
      ∃ i n, FirstLacks args d.required (positional args) i n ∧ e = .missingParam d.name n) ∧
    ∀ bound warnings, d.bind args = .ok (bound, warnings) →
      (∀ n, (bound.lookup n).isSome = d.hasParam n) ∧
      (∀ i n, d.required[i]? = some n → n ∉ d.required.drop (i + 1) → n ∉ d.optional.map Prod.fst →
        bound.lookup n = (positional args)[i]?.or (named? args n)) ∧
      ∀ j n default, d.optional[j]? = some (n, default) → n ∉ (d.optional.drop (j + 1)).map Prod.fst →
        bound.lookup n = some ((named? args n).getD
          ((positional args)[d.required.length + unnamedBefore args d.optional j]?.getD default)) := by
  refine ⟨exists_bind_error_iff, fun e => bind_error_iff, fun bound warnings h => ⟨fun n => ?_, ?_⟩⟩
  · rw [Bool.eq_iff_iff, isSome_lookup_iff, mem_names_bind h]
  obtain ⟨vs, ws, hvs, hws, hrequired, hoptional, rfl⟩ := exists_of_bind_ok h
  have hlength : (vs ++ ws).length = (d.required ++ d.optional.map Prod.fst).length := by simp [hvs, hws]
  constructor
  · intro i n hi hlater hnot
    obtain ⟨hlt, -⟩ := List.getElem?_eq_some_iff.1 hi
    rw [lookup_reverse_zip (i := i) hlength, List.getElem?_append_left (by omega), hrequired i n hi,
      requiredValue?]
    · rw [List.getElem?_append_left hlt, hi]
    · rw [List.drop_append_of_le_length (by omega), List.mem_append, not_or]
      exact ⟨hlater, hnot⟩
  · intro j n default hj hlater
    rw [lookup_reverse_zip (i := d.required.length + j) hlength, ← hvs,
      List.getElem?_append_right (Nat.le_add_right _ _), Nat.add_sub_cancel_left, hoptional j _ hj,
      optionalValue, List.getElem?_drop, hvs]
    · rw [List.getElem?_append_right (Nat.le_add_right _ _), Nat.add_sub_cancel_left, List.getElem?_map, hj]
      rfl
    · rw [Nat.add_assoc, List.drop_append, List.drop_of_length_le (by omega), List.nil_append,
        Nat.add_sub_cancel_left, ← List.map_drop]
      exact hlater

def mixedDefinition : Definition :=
  { name := ['m'], required := [['a'], ['b']],
    optional := [(['c'], .text ['x']), (['d'], .text ['y']), (['a'], .text ['z']), (['e'], .number 5)] }

def mixedArguments : List Argument :=
  [⟨some ['c'], .text ['0']⟩, ⟨none, .text ['1']⟩, ⟨none, .text ['2']⟩, ⟨some ['u'], .text ['7']⟩,
    ⟨none, .text ['3']⟩, ⟨some ['c'], .text ['8']⟩, ⟨none, .text ['4']⟩]

theorem bind_parameters_mixed :
    (∃ bound warnings, mixedDefinition.bind mixedArguments = .ok (bound, warnings) ∧
      (bound.lookup ['u']).isSome = false ∧ bound.lookup ['b'] = some (.text ['2']) ∧
      bound.lookup ['c'] = some (.text ['8']) ∧ bound.lookup ['d'] = some (.text ['3']) ∧
      bound.lookup ['a'] = some (.text ['4']) ∧ bound.lookup ['e'] = some (.number 5)) ∧
    mixedDefinition.bind [⟨none, .text ['1']⟩, ⟨some ['a'], .text ['2']⟩] =
      .error (.missingParam ['m'] ['b']) := by
  constructor
  · obtain ⟨bound, warnings, h⟩ : ∃ bound warnings,
        mixedDefinition.bind mixedArguments = .ok (bound, warnings) := ⟨_, _, rfl⟩
    obtain ⟨hnames, hrequired, hoptional⟩ := (bind_parameters mixedDefinition mixedArguments).2.2 bound warnings h
    exact ⟨bound, warnings, h, hnames _, hrequired 1 ['b'] rfl (by decide) (by decide),
      hoptional 0 ['c'] _ rfl (by decide), hoptional 1 ['d'] _ rfl (by decide),
      hoptional 2 ['a'] _ rfl (by decide), hoptional 3 ['e'] _ rfl (by decide)⟩
  · refine ((bind_parameters mixedDefinition _).2.1 _).2 ⟨1, ['b'], ⟨⟨rfl, Nat.le_refl 1, rfl⟩, ?_⟩, rfl⟩
    exact fun j m hj => hj.2.1

end Stencil.Definition
