/-!
# Tables

Definitions and bindings are kept under their names in the order in which the names appeared. A table is
seen through `get?` alone: each way to change it is characterised by what it does to a look-up.
-/

namespace BinaryFormat

/-- Values under names, in the order in which the names first appeared. -/
abbrev Table (α : Type) := List (String × α)

namespace Table

variable {α : Type}

/-- The value under a name. -/
def get? (t : Table α) (name : String) : Option α := t.lookup name

/-- What is found under a name is an entry of the table. -/
theorem mem_of_get? {t : Table α} {name : String} {a : α} (h : t.get? name = some a) : (name, a) ∈ t := by
  obtain ⟨before, rest, rfl, -⟩ := List.lookup_eq_some_iff.mp h
  exact List.mem_append_right _ (.head _)

/-- Puts a value under a name. -/
def insert (t : Table α) (name : String) (a : α) : Table α :=
  match t with
  | [] => [(name, a)]
  | e :: rest => if e.1 = name then (name, a) :: rest else e :: insert rest name a

/-- A value is found under the name that it was put under, and every other name keeps its own. -/
theorem get?_insert (t : Table α) (name other : String) (a : α) :
    (t.insert name a).get? other = if other = name then some a else t.get? other := by
  induction t with
  | nil =>
    by_cases h : other = name
    · subst h; simp [insert, get?]
    · simp [insert, get?, List.lookup_cons, h, beq_false_of_ne h]
  | cons e rest ih =>
    obtain ⟨k, v⟩ := e
    simp only [get?] at ih
    by_cases hk : k = name
    · subst hk
      by_cases h : other = k
      · subst h; simp [insert, get?]
      · simp [insert, get?, List.lookup_cons, h, beq_false_of_ne h]
    · by_cases h : other = k
      · subst h; simp [insert, get?, hk]
      · simp [insert, get?, hk, List.lookup_cons, beq_false_of_ne h, ih]

/-- Puts a value under a name that has none yet. -/
def insertIfNew (t : Table α) (name : String) (a : α) : Table α :=
  if (t.get? name).isSome then t else t.insert name a

/-- Lets the entries of `u` take precedence over those of `t`. -/
def merge (t u : Table α) : Table α := u.foldr (fun e t => t.insert e.1 e.2) t

/-- What takes precedence is looked at first. -/
theorem get?_merge (t u : Table α) (name : String) :
    (t.merge u).get? name = (u.get? name).or (t.get? name) := by
  induction u with
  | nil => rfl
  | cons e u ih =>
    obtain ⟨k, v⟩ := e
    have : t.merge ((k, v) :: u) = (t.merge u).insert k v := rfl
    rw [this, get?_insert, ih]
    by_cases h : name = k
    · subst h; simp [get?]
    · simp only [get?, List.lookup_cons, if_neg h, beq_false_of_ne h]

end Table

end BinaryFormat
