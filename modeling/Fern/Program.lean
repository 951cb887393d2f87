import Fern.Value.Display

/-!
# Program tables

A program is the table of its top-level definitions, in the order in which their names first
appeared, together with its type definitions, whose places are their handle indices. Defining a name
again replaces the definition and keeps the place.
-/

namespace Fern

/-- A top-level definition. -/
structure Definition where
  expr : Expr
  type : TypeInfo
  deriving Repr, Inhabited

/-- A program table. -/
structure Program where
  definitions : List (String × Definition) := []
  types : List TypeDef := []
  deriving Repr, Inhabited

namespace Program

def empty : Program := {}

/-- Puts an entry into a table, at the place of the entry of the same name if there is one. -/
def put {α : Type} (name : String) (entry : α) : List (String × α) → List (String × α)
  | [] => [(name, entry)]
  | (other, old) :: rest =>
    if other = name then (name, entry) :: rest else (other, old) :: put name entry rest

def define (program : Program) (name : String) (expr : Expr) (type : TypeInfo) : Program :=
  { program with definitions := put name ⟨expr, type⟩ program.definitions }

def find? (program : Program) (name : String) : Option Definition :=
  program.definitions.lookup name

def names (program : Program) : List String := program.definitions.map (·.1)

/-- Adds a type definition behind the others. -/
def addType (program : Program) (def_ : TypeDef) : Program :=
  { program with types := program.types ++ [def_] }

/-- The handle of a type definition that has just been added. -/
def lastHandle (program : Program) (def_ : TypeDef) : TypeHandle :=
  ⟨program.types.length, def_.name⟩

def handledTypes (program : Program) : List (TypeHandle × TypeDef) :=
  program.types.zipIdx.map fun (def_, i) => (⟨i, def_.name⟩, def_)

def handles (program : Program) : List TypeHandle := program.handledTypes.map (·.1)

def typeDef? (program : Program) (handle : TypeHandle) : Option TypeDef :=
  handle.find? program.types

section Table

variable {α : Type}

theorem lookup_put_self (name : String) (entry : α) (table : List (String × α)) :
    (put name entry table).lookup name = some entry := by
  induction table with
  | nil => rw [put, List.lookup_cons_self]
  | cons old rest ih =>
    obtain ⟨key, value⟩ := old
    rw [put]
    by_cases hk : key = name
    · rw [if_pos hk, List.lookup_cons_self]
    · rw [if_neg hk, List.lookup_cons, beq_false_of_ne (Ne.symm hk)]
      exact ih

theorem lookup_put_of_ne {name other : String} (entry : α) (table : List (String × α))
    (h : other ≠ name) : (put name entry table).lookup other = table.lookup other := by
  induction table with
  | nil => rw [put, List.lookup_cons, beq_false_of_ne h]
  | cons old rest ih =>
    obtain ⟨key, value⟩ := old
    rw [put]
    by_cases hk : key = name
    · rw [if_pos hk, List.lookup_cons, List.lookup_cons, beq_false_of_ne h,
        beq_false_of_ne (hk ▸ h)]
    · rw [if_neg hk, List.lookup_cons, List.lookup_cons, ih]

end Table

theorem find?_define_self (program : Program) (name : String) (expr : Expr) (type : TypeInfo) :
    (program.define name expr type).find? name = some ⟨expr, type⟩ :=
  lookup_put_self name _ _

theorem find?_define_of_ne (program : Program) {name other : String} (expr : Expr)
    (type : TypeInfo) (h : other ≠ name) :
    (program.define name expr type).find? other = program.find? other :=
  lookup_put_of_ne _ _ h

end Program

end Fern
