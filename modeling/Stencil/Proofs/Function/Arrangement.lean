import Mathlib.Data.List.Induction
import Stencil.Function

/-! # How arguments are arranged

Named arguments are placed one after the other, so that the last one for a position stays
(`held?_placeNamed`); the positional ones go to the cells that are free, in order (`exists_map_free_fill`).
So the arranged list is known cell by cell, and it is no longer than its values need (`arrange_positions`). -/
set_option autoImplicit false
namespace Stencil.Function

open Argument (positional named?)

/-! ## Cells -/

def held? (cells : List (Option Value)) (i : Nat) : Option Value := cells[i]?.join

def freeCells (cells : List (Option Value)) (k : Nat) : List Nat :=
  (List.range k).filter fun i => (held? cells i).isNone

section

variable {cells : List (Option Value)} {values : List Value}

@[simp] theorem held?_nil (i : Nat) : held? [] i = none := rfl

@[simp] theorem held?_cons_zero (cell : Option Value) : held? (cell :: cells) 0 = cell := rfl

@[simp] theorem held?_cons_succ (cell : Option Value) (i : Nat) : held? (cell :: cells) (i + 1) = held? cells i :=
  rfl

theorem held?_place (cells : List (Option Value)) (n : Nat) (v : Value) (i : Nat) :
    held? (place cells n v) i = if i = n then some v else held? cells i := by
  fun_induction place cells n v generalizing i with
  | case1 v => cases i <;> simp
  | case2 n v ih => cases i <;> simp [ih]
  | case3 cell cells v => cases i <;> simp
  | case4 cell cells n v ih => cases i <;> simp [ih]

theorem length_place (cells : List (Option Value)) (n : Nat) (v : Value) :
    (place cells n v).length = max cells.length (n + 1) := by
  fun_induction place cells n v with
  | case1 v => rfl
  | case2 n v ih => simp [ih]
  | case3 cell cells v => simp
  | case4 cell cells n v ih => simp [ih]

/-- The last cell is not empty: the cells are no more than what they hold needs. -/
def Tight (cells : List (Option Value)) : Prop :=
  ∀ k, (∀ i, (held? cells i).isSome = true → i < k) → cells.length ≤ k

theorem tight_place (h : Tight cells) (n : Nat) (v : Value) : Tight (place cells n v) := by
  intro k hk
  have hn : n < k := hk n (by simp [held?_place])
  have hcells : cells.length ≤ k := by
    refine h k fun i hi => ?_
    refine hk i ?_
    rw [held?_place]
    split
    · rfl
    · exact hi
  rw [length_place]
  omega

theorem lt_length_of_held {i : Nat} (h : (held? cells i).isSome = true) : i < cells.length := by
  by_contra hle
  rw [held?, List.getElem?_eq_none (Nat.not_lt.1 hle)] at h
  cases h

theorem Tight.length_le_iff (h : Tight cells) {k : Nat} :
    cells.length ≤ k ↔ ∀ i, (held? cells i).isSome = true → i < k :=
  ⟨fun hk _ hi => Nat.lt_of_lt_of_le (lt_length_of_held hi) hk, h k⟩

/-! ## Filling -/

theorem freeCells_nil (k : Nat) : freeCells [] k = List.range k := by simp [freeCells]

theorem freeCells_cons (cell : Option Value) (cells : List (Option Value)) (k : Nat) :
    freeCells (cell :: cells) (k + 1) =
      (if cell.isNone then [0] else []) ++ (freeCells cells k).map Nat.succ := by
  rw [freeCells, List.range_succ_eq_map, List.filter_cons, List.filter_map]
  cases cell <;> rfl

/-- A cell that holds a value keeps it. -/
theorem getElem?_fill_of_held {i : Nat} {v : Value} (h : held? cells i = some v) :
    (fill cells values)[i]? = some (some v) := by
  fun_induction fill cells values generalizing i with
  | case1 values => cases h
  | case2 w cells values ih =>
      cases i with
      | zero => simpa using h
      | succ i => simpa using ih h
  | case3 cells w values ih =>
      cases i with
      | zero => cases h
      | succ i => simpa using ih h
  | case4 cells ih =>
      cases i with
      | zero => cases h
      | succ i => simpa using ih h

theorem map_freeCells_cons (cell filled : Option Value) (cells out : List (Option Value)) :
    (freeCells (cell :: cells) (filled :: out).length).map ((filled :: out)[·]?) =
      (if cell.isNone then [some filled] else []) ++ (freeCells cells out.length).map (out[·]?) := by
  rw [List.length_cons, freeCells_cons, List.map_append, List.map_map]
  cases cell <;> rfl

/-- The free cells take the values in order; those behind them stay empty. -/
theorem exists_map_free_fill (cells : List (Option Value)) (values : List Value) :
    ∃ m, (freeCells cells (fill cells values).length).map ((fill cells values)[·]?) =
      values.map (fun v => some (some v)) ++ List.replicate m (some none) := by
  fun_induction fill cells values with
  | case1 values =>
      refine ⟨0, ?_⟩
      rw [freeCells_nil, List.replicate_zero, List.append_nil]
      refine List.ext_getElem (by simp) fun i h _ => ?_
      simp
  | case2 w cells values ih =>
      obtain ⟨m, hm⟩ := ih
      refine ⟨m, ?_⟩
      rw [map_freeCells_cons, hm]
      rfl
  | case3 cells w values ih =>
      obtain ⟨m, hm⟩ := ih
      refine ⟨m, ?_⟩
      rw [map_freeCells_cons, hm]
      rfl
  | case4 cells ih =>
      obtain ⟨m, hm⟩ := ih
      refine ⟨m + 1, ?_⟩
      rw [map_freeCells_cons, hm]
      rfl

theorem length_fill_le_iff {k : Nat} : (fill cells values).length ≤ k ↔
    cells.length ≤ k ∧ values.length ≤ (freeCells cells k).length := by
  fun_induction fill cells values generalizing k with
  | case1 values => simp [freeCells_nil]
  | case2 w cells values ih =>
      cases k with
      | zero => simp
      | succ k => simp [freeCells_cons, ih]
  | case3 cells w values ih =>
      cases k with
      | zero => simp
      | succ k => simp [freeCells_cons, ih]
  | case4 cells ih =>
      cases k with
      | zero => simp
      | succ k => simp [ih]

end

/-! ## Named arguments -/

/-- The value for a position: that of the last argument with the name of the parameter there. A parameter that is
declared twice has its first position. -/
def valueAt? (params : List Text) (args : List Argument) (i : Nat) : Option Value :=
  params[i]?.bind fun n => if params.findIdx? (· = n) = some i then named? args n else none

theorem getElem?_of_findIdx? {params : List Text} {n : Text} {i : Nat}
    (h : params.findIdx? (· = n) = some i) : params[i]? = some n := by
  obtain ⟨hlt, hp, -⟩ := List.findIdx?_eq_some_iff_getElem.1 h
  rw [List.getElem?_eq_getElem hlt, of_decide_eq_true hp]

theorem valueAt?_of_findIdx? {params : List Text} (args : List Argument) {n : Text} {i : Nat}
    (h : params.findIdx? (· = n) = some i) : valueAt? params args i = named? args n := by
  rw [valueAt?, getElem?_of_findIdx? h, Option.bind_some, if_pos h]

theorem named?_concat (args : List Argument) (a : Argument) (n : Text) :
    named? (args ++ [a]) n = if a.name = some n then some a.value else named? args n := by
  simp only [named?, List.reverse_append, List.reverse_singleton, List.singleton_append, List.find?_cons]
  by_cases h : a.name = some n <;> simp [h]

theorem valueAt?_concat (params : List Text) (args : List Argument) (a : Argument) (i : Nat) :
    valueAt? params (args ++ [a]) i =
      if (a.name.bind fun n => params.findIdx? (· = n)) = some i then some a.value
      else valueAt? params args i := by
  by_cases ha : (a.name.bind fun n => params.findIdx? (· = n)) = some i
  · obtain ⟨n, hname, hposition⟩ := Option.bind_eq_some_iff.1 ha
    rw [if_pos ha, valueAt?_of_findIdx? _ hposition, named?_concat, if_pos hname]
  · rw [if_neg ha, valueAt?, valueAt?]
    cases params[i]? with
    | none => rfl
    | some n =>
        simp only [Option.bind_some]
        by_cases hposition : params.findIdx? (· = n) = some i
        · have hname : a.name ≠ some n := fun hname => ha (by rw [hname, Option.bind_some, hposition])
          rw [named?_concat, if_neg hname]
        · rw [if_neg hposition, if_neg hposition]

theorem placeNamed_concat (params : List Text) (args : List Argument) (a : Argument) :
    placeNamed params (args ++ [a]) =
      match a.name.bind fun n => params.findIdx? (· = n) with
      | some i => place (placeNamed params args) i a.value
      | none => placeNamed params args := by
  rw [placeNamed, List.foldl_append]
  rfl

/-- Every cell holds the value of the last argument for its position, by induction from the last argument. -/
theorem held?_placeNamed (params : List Text) (args : List Argument) (i : Nat) :
    held? (placeNamed params args) i = valueAt? params args i := by
  induction args using List.reverseRecOn with
  | nil =>
      have hnone : ∀ n, named? [] n = none := fun n => rfl
      simp [placeNamed, valueAt?, hnone]
  | append_singleton args a ih =>
      rw [placeNamed_concat, valueAt?_concat, ← ih]
      split
      next j hj =>
        rw [held?_place, hj]
        simp only [Option.some_inj, eq_comm]
      next hnone => rw [hnone, if_neg (Option.some_ne_none i).symm]

theorem tight_placeNamed (params : List Text) (args : List Argument) : Tight (placeNamed params args) := by
  induction args using List.reverseRecOn with
  | nil => exact fun k _ => Nat.zero_le k
  | append_singleton args a ih =>
      rw [placeNamed_concat]
      split
      · exact tight_place ih _ _
      · exact ih

/-- Arguments whose name no parameter has place nothing. -/
theorem placeNamed_filter (params : List Text) (args : List Argument) :
    placeNamed params (args.filter fun a => a.name.all params.contains) = placeNamed params args := by
  rw [placeNamed, placeNamed, List.foldl_filter]
  congr 1
  funext cells a
  split
  · rfl
  next hunknown =>
    obtain ⟨n, hname, hn⟩ : ∃ n, a.name = some n ∧ n ∉ params := by
      cases hname : a.name with
      | none => simp [hname] at hunknown
      | some n => exact ⟨n, rfl, by simpa [hname] using hunknown⟩
    have hposition : params.findIdx? (· = n) = none := by
      refine List.findIdx?_eq_none_iff.2 fun p hp => ?_
      exact decide_eq_false fun h => hn (h ▸ hp)
    rw [hname, Option.bind_some, hposition]

theorem positional_filter (params : List Text) (args : List Argument) :
    positional (args.filter fun a => a.name.all params.contains) = positional args := by
  rw [positional, positional, List.filterMap_filter]
  congr 1
  funext a
  cases a.name with
  | none => rfl
  | some n => simp

/-! ## The arranged list -/

def freePositions (f : Function) (args : List Argument) (k : Nat) : List Nat :=
  (List.range k).filter fun i => (valueAt? f.params args i).isNone

theorem freeCells_placeNamed (f : Function) (args : List Argument) (k : Nat) :
    freeCells (placeNamed f.params args) k = freePositions f args k := by
  simp only [freeCells, held?_placeNamed, freePositions]

theorem isSome_valueAt?_iff {params : List Text} {args : List Argument} {i : Nat} :
    (valueAt? params args i).isSome = true ↔
      ∃ n, params.findIdx? (· = n) = some i ∧ (named? args n).isSome = true := by
  constructor
  · intro h
    rw [valueAt?] at h
    cases hparam : params[i]? with
    | none => simp [hparam] at h
    | some n =>
        rw [hparam, Option.bind_some] at h
        split at h
        next hposition => exact ⟨n, hposition, h⟩
        next => cases h
  · rintro ⟨n, hposition, hn⟩
    rwa [valueAt?_of_findIdx? args hposition]

theorem getElem?_arrange (f : Function) (args : List Argument) (i : Nat) :
    (f.arrange args)[i]? =
      ((fill (placeNamed f.params args) (positional args))[i]?).map fun cell => cell.getD default :=
  List.getElem?_map ..

theorem length_arrange (f : Function) (args : List Argument) :
    (f.arrange args).length = (fill (placeNamed f.params args) (positional args)).length :=
  List.length_map ..

theorem arrange_of_named {f : Function} {args : List Argument} {n : Text} {i : Nat} {v : Value}
    (hposition : f.params.findIdx? (· = n) = some i) (hv : named? args n = some v) :
    (f.arrange args)[i]? = some v := by
  have hheld : held? (placeNamed f.params args) i = some v := by
    rw [held?_placeNamed, valueAt?_of_findIdx? args hposition, hv]
  rw [getElem?_arrange, getElem?_fill_of_held hheld]
  rfl

theorem exists_map_freePositions (f : Function) (args : List Argument) :
    ∃ m, (freePositions f args (f.arrange args).length).map ((f.arrange args)[·]?) =
      (positional args).map some ++ List.replicate m (some (.text [])) := by
  obtain ⟨m, hm⟩ := exists_map_free_fill (placeNamed f.params args) (positional args)
  refine ⟨m, ?_⟩
  have hcells : ((f.arrange args)[·]?) =
      Option.map (fun cell : Option Value => cell.getD default) ∘
        ((fill (placeNamed f.params args) (positional args))[·]?) :=
    funext fun i => getElem?_arrange f args i
  rw [hcells, ← List.map_map, ← freeCells_placeNamed, length_arrange, hm, List.map_append, List.map_map,
    List.map_replicate]
  rfl

theorem length_arrange_le_iff (f : Function) (args : List Argument) (k : Nat) :
    (f.arrange args).length ≤ k ↔
      (∀ n i, f.params.findIdx? (· = n) = some i → (named? args n).isSome = true → i < k) ∧
      (positional args).length ≤ (freePositions f args k).length := by
  rw [length_arrange, length_fill_le_iff, (tight_placeNamed f.params args).length_le_iff,
    freeCells_placeNamed]
  refine and_congr_left fun _ => ?_
  simp only [held?_placeNamed, isSome_valueAt?_iff]
  exact ⟨fun h n i hposition hn => h i ⟨n, hposition, hn⟩, fun h i ⟨n, hposition, hn⟩ => h n i hposition hn⟩

/-- The arranged list, cell by cell. The last value for a declared name is at the position of the name; the
positions that no name takes have the positional values, each once and in order, and behind these the empty text;
the list ends where the last of these values stands; arguments with other names change nothing. -/
theorem arrange_positions (f : Function) (args : List Argument) :
    (∀ n i v, f.params.findIdx? (· = n) = some i → named? args n = some v →
      (f.arrange args)[i]? = some v) ∧
    (∃ m, (freePositions f args (f.arrange args).length).map ((f.arrange args)[·]?) =
      (positional args).map some ++ List.replicate m (some (.text []))) ∧
    (∀ k, (f.arrange args).length ≤ k ↔
      (∀ n i, f.params.findIdx? (· = n) = some i → (named? args n).isSome = true → i < k) ∧
      (positional args).length ≤ (freePositions f args k).length) ∧
    f.arrange args = f.arrange (args.filter fun a => a.name.all f.params.contains) := by
  refine ⟨fun n i v => arrange_of_named, exists_map_freePositions f args, length_arrange_le_iff f args, ?_⟩
  rw [arrange, arrange, placeNamed_filter, positional_filter]

def pairing : Function :=
  { name := ['p'], params := [['a'], ['b'], ['a'], ['c'], ['d']], run := fun _ c => (.ok [], c) }

def pairingArguments : List Argument :=
  [⟨some ['d'], .text ['1']⟩, ⟨none, .text ['2']⟩, ⟨some ['a'], .text ['3']⟩, ⟨some ['u'], .text ['4']⟩,
    ⟨some ['a'], .text ['5']⟩]

/-- The name that is declared twice has its first position; its second one and that of `c` stay empty. -/
theorem arrange_positions_pairing :
    pairing.arrange pairingArguments = [.text ['5'], .text ['2'], .text [], .text [], .text ['1']] ∧
    (pairing.arrange pairingArguments)[0]? = some (.text ['5']) ∧
    ((pairing.arrange pairingArguments).length ≤ 5 ↔
      (∀ n i, pairing.params.findIdx? (· = n) = some i → (named? pairingArguments n).isSome = true → i < 5) ∧
      (positional pairingArguments).length ≤ (freePositions pairing pairingArguments 5).length) := by
  obtain ⟨hnamed, -, hlength, -⟩ := arrange_positions pairing pairingArguments
  exact ⟨rfl, hnamed ['a'] 0 _ rfl rfl, hlength 5⟩

end Stencil.Function
