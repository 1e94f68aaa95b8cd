/-! # Tables by name

A table holds one value for each name, in the order in which names were first entered.
-/

namespace Wgsl
set_option autoImplicit false

/-- Values by name, in the order of first entry. -/
abbrev Table (α : Type) := List (String × α)

namespace Table

variable {α : Type}

/-- The value entered under the name. -/
def find? (t : Table α) (name : String) : Option α := List.lookup name t

/-- Whether the name has a value. -/
def has (t : Table α) (name : String) : Bool := (t.find? name).isSome

/-- Enters a value, in the place of an earlier one of the same name. -/
def insert (t : Table α) (name : String) (value : α) : Table α :=
  match t with
  | [] => [(name, value)]
  | (n, v) :: r => if n = name then (n, value) :: r else (n, v) :: insert r name value

@[simp] theorem find?_nil (name : String) : find? ([] : Table α) name = none := rfl

/-- An entered value is found. -/
@[simp] theorem find?_insert_self (t : Table α) (name : String) (value : α) :
    (t.insert name value).find? name = some value := by
  induction t with
  | nil => simp [insert, find?]
  | cons p r ih =>
    obtain ⟨n, v⟩ := p
    by_cases h : n = name
    · simp [insert, find?, h]
    · have h' : (name == n) = false := by simpa [beq_eq_false_iff_ne] using fun e => h e.symm
      simpa [insert, find?, h, List.lookup_cons, h'] using ih

/-- Entering a value changes no other name. -/
theorem find?_insert_of_ne (t : Table α) {name other : String} (value : α) (h : other ≠ name) :
    (t.insert name value).find? other = t.find? other := by
  induction t with
  | nil =>
    have h' : (other == name) = false := by simpa [beq_eq_false_iff_ne] using h
    simp [insert, find?, List.lookup_cons, h']
  | cons p r ih =>
    obtain ⟨n, v⟩ := p
    by_cases hn : n = name
    · subst hn
      have h' : (other == n) = false := by simpa [beq_eq_false_iff_ne] using h
      simp [insert, find?, List.lookup_cons, h']
    · by_cases ho : other = n
      · subst ho
        simp [insert, hn, find?]
      · have h' : (other == n) = false := by simpa [beq_eq_false_iff_ne] using ho
        simpa [insert, hn, find?, List.lookup_cons, h'] using ih

end Table

end Wgsl
