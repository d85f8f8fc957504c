import Stencil.Text.Basic

/-! # Maps from names

A finite map from names to things, in the order of the names. -/
set_option autoImplicit false
namespace Stencil

structure NameMap (α : Type) where
  entries : List (Text × α) := []

namespace NameMap

variable {α : Type}

def empty : NameMap α := {}

def get? (m : NameMap α) (name : Text) : Option α := m.entries.lookup name

def contains (m : NameMap α) (name : Text) : Bool := (m.get? name).isSome

/-- Entries with one for a new name, before the first name that it comes before. -/
def insertEntry (name : Text) (a : α) : List (Text × α) → List (Text × α)
  | [] => [(name, a)]
  | (n, b) :: es =>
    if Text.before name n then (name, a) :: (n, b) :: es else (n, b) :: insertEntry name a es

def insert (m : NameMap α) (name : Text) (a : α) : NameMap α :=
  if m.contains name then
    { entries := m.entries.map fun e => if e.1 = name then (name, a) else e }
  else { entries := insertEntry name a m.entries }

def erase (m : NameMap α) (name : Text) : NameMap α :=
  { entries := m.entries.filter fun e => e.1 ≠ name }

def size (m : NameMap α) : Nat := m.entries.length

def names (m : NameMap α) : List Text := Text.sort (m.entries.map Prod.fst)

theorem lookup_cons (name other : Text) (a : α) (es : List (Text × α)) :
    ((name, a) :: es).lookup other = if other = name then some a else es.lookup other := by
  rw [List.lookup_cons]
  by_cases ho : other = name
  · simp [ho]
  · have hbeq : (other == name) = false := by simpa using ho
    rw [hbeq, if_neg ho]

theorem lookup_map_of_name (name other : Text) (a : α) (es : List (Text × α)) :
    (es.map fun e => if e.1 = name then (name, a) else e).lookup other =
      if other = name then (es.lookup other).map fun _ => a else es.lookup other := by
  induction es with
  | nil => simp
  | cons e es ih =>
      obtain ⟨n, b⟩ := e
      rw [List.map_cons]
      by_cases hn : n = name
      · subst hn
        rw [if_pos rfl, lookup_cons, lookup_cons, ih]
        by_cases ho : other = n <;> simp [ho]
      · rw [if_neg hn, lookup_cons, lookup_cons, ih]
        by_cases ho : other = n
        · subst ho
          simp [hn]
        · simp only [if_neg ho]

theorem lookup_insertEntry {name : Text} (other : Text) (a : α) {es : List (Text × α)}
    (h : es.lookup name = none) :
    (insertEntry name a es).lookup other = if other = name then some a else es.lookup other := by
  induction es with
  | nil => exact lookup_cons name other a []
  | cons e es ih =>
      obtain ⟨n, b⟩ := e
      rw [insertEntry]
      split
      · exact lookup_cons name other a ((n, b) :: es)
      · rw [lookup_cons] at h ⊢
        rw [lookup_cons]
        split at h
        · cases h
        next hn =>
          rw [ih h]
          by_cases ho : other = name
          · subst ho
            simp [hn]
          · rw [if_neg ho, if_neg ho]

theorem get?_insert (m : NameMap α) (name other : Text) (a : α) :
    (m.insert name a).get? other = if other = name then some a else m.get? other := by
  by_cases hc : m.contains name = true
  · rw [insert, if_pos hc, get?, lookup_map_of_name]
    by_cases ho : other = name
    · subst ho
      obtain ⟨b, hb⟩ := Option.isSome_iff_exists.1 hc
      rw [if_pos rfl, if_pos rfl, show m.entries.lookup other = some b from hb]
      rfl
    · rw [if_neg ho, if_neg ho]
      rfl
  · have hnone : m.get? name = none := by simpa [contains] using hc
    rw [insert, if_neg hc, get?, lookup_insertEntry other a hnone]
    rfl

theorem get?_insert_self (m : NameMap α) (name : Text) (a : α) :
    (m.insert name a).get? name = some a := by
  rw [get?_insert, if_pos rfl]

/-- Adding a new name keeps what is under the others. -/
theorem get?_insert_of_some {m : NameMap α} {name other : Text} {a b : α}
    (h : m.get? name = none) (ho : m.get? other = some b) :
    (m.insert name a).get? other = some b := by
  have hne : other ≠ name := by
    rintro rfl
    rw [h] at ho
    cases ho
  rw [get?_insert, if_neg hne, ho]

end NameMap
end Stencil
