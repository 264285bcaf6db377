/-!
# Named fields

A collection of values under distinct names, kept in increasing order of the names. Names are
compared code point by code point. Putting a name in twice keeps the later value.

## Main definitions

* `Fields.insert`, `Fields.get?` — one field
* `Fields.ofList` — all fields of a list, later ones winning
-/

namespace Reified

universe u v

/-- Values under names, in increasing order of the names. -/
abbrev Fields (α : Type u) := List (String × α)

namespace Fields

variable {α : Type u} {β : Type v}

/-- Put a value under a name, in place of the value that was there. -/
def insert (name : String) (x : α) : Fields α → Fields α
  | [] => [(name, x)]
  | (other, y) :: rest =>
    if name = other then (name, x) :: rest
    else if name < other then (name, x) :: (other, y) :: rest
    else (other, y) :: insert name x rest

/-- The value under a name. -/
def get? (name : String) : Fields α → Option α
  | [] => none
  | (other, y) :: rest => if name = other then some y else get? name rest

/-- The name has a value. -/
def has (name : String) (fields : Fields α) : Bool :=
  (get? name fields).isSome

/-- The names, in increasing order. -/
def names (fields : Fields α) : List String :=
  fields.map Prod.fst

/-- The fields of a list in which a later entry replaces an earlier one of its name. -/
def ofList (entries : List (String × α)) : Fields α :=
  entries.foldl (fun fields entry => insert entry.1 entry.2 fields) []

/-! ## Reading after writing -/

theorem get?_insert_self (name : String) (x : α) (fields : Fields α) :
    get? name (insert name x fields) = some x := by
  fun_induction insert with
  | case1 => simp [get?]
  | case2 => simp [get?]
  | case3 => simp [get?]
  | case4 other y rest hne hlt ih => simp [get?, hne, ih]

theorem get?_insert_of_ne {name other : String} (h : other ≠ name) (x : α) (fields : Fields α) :
    get? other (insert name x fields) = get? other fields := by
  fun_induction insert with
  | case1 => simp [get?, h]
  | case2 => simp_all [get?]
  | case3 => simp [get?, h]
  | case4 entry y rest hne hlt ih => simp [get?, ih]

end Fields

end Reified
