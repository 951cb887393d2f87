import Fern.Expr

/-!
# Values

What an expression evaluates to. A function carries the local bindings of the place where it was
made; a constructor waits for its payload; a built-in function is known by its identifier. Truth
values are the integers zero and one.

A local scope maps names to values. It is kept as the list of what has been bound, the latest first,
and it maps a name to what `find?` finds: a binding behind a later one of its name is no part of the
mapping, and `visible` lists the mapping without it. Whoever holds the scope from before the later
binding still has it as it was.

Values given from outside may have a type that the language does not know; they are kept, and shown
by the name of their type.
-/

namespace Fern

inductive Value
  | unit
  | integer (n : Int)
  | string (text : String)
  | tuple (items : List Value)
  | function (param : String) (captured : List (String × Value)) (body : Expr)
  | variant (handle : TypeHandle) (index : Int) (payload : Value)
  | constructor (handle : TypeHandle) (index : Int)
  | builtin (id : String)
  | other (typeName : String) (content : Datum)
  deriving Repr, Inhabited

/-- The local bindings in force, the latest first. -/
abbrev Scope := List (String × Value)

/-- The scope with one more binding. -/
def Scope.bind (scope : Scope) (name : String) (value : Value) : Scope := (name, value) :: scope

def Scope.find? (scope : Scope) (name : String) : Option Value := scope.lookup name

/-- The bindings that are not hidden by a later one. -/
def Scope.visible : Scope → Scope
  | [] => []
  | (name, value) :: rest => (name, value) :: (visible rest).filter (·.1 != name)

/-- The visible bindings in the order of their names. -/
def Scope.sorted (scope : Scope) : Scope :=
  scope.visible.mergeSort fun a b => decide (a.1 ≤ b.1)

theorem mem_of_lookup {α β : Type} [BEq α] [LawfulBEq α] {table : List (α × β)} {key : α} {b : β}
    (h : table.lookup key = some b) : (key, b) ∈ table := by
  obtain ⟨before, behind, rfl, _⟩ := List.lookup_eq_some_iff.1 h
  exact List.mem_append_right _ List.mem_cons_self

namespace Scope

@[simp] theorem find?_bind_self (scope : Scope) (name : String) (value : Value) :
    (scope.bind name value).find? name = some value := by
  rw [find?, bind, List.lookup_cons_self]

theorem find?_bind_of_ne (scope : Scope) {name other : String} (value : Value)
    (h : other ≠ name) : (scope.bind name value).find? other = scope.find? other := by
  rw [find?, bind, List.lookup_cons, beq_false_of_ne h]
  rfl

theorem find?_filter_of_ne (scope : Scope) {name other : String} (h : other ≠ name) :
    Scope.find? (scope.filter (·.1 != name)) other = scope.find? other := by
  induction scope with
  | nil => rfl
  | cons entry rest ih =>
    obtain ⟨key, value⟩ := entry
    by_cases hk : key = name
    · subst hk
      rw [List.filter_cons_of_neg (by simp), ih]
      exact (find?_bind_of_ne rest value h).symm
    · rw [List.filter_cons_of_pos (by simpa using hk)]
      by_cases ho : other = key
      · subst ho
        rw [find?, find?, List.lookup_cons_self, List.lookup_cons_self]
      · exact (find?_bind_of_ne _ value ho).trans (ih.trans (find?_bind_of_ne rest value ho).symm)

/-- Hidden bindings do not matter to a look-up. -/
theorem find?_visible (scope : Scope) (name : String) :
    scope.visible.find? name = scope.find? name := by
  induction scope with
  | nil => rfl
  | cons entry rest ih =>
    obtain ⟨key, value⟩ := entry
    rw [visible]
    by_cases hk : name = key
    · subst hk
      rw [find?, find?, List.lookup_cons_self, List.lookup_cons_self]
    · exact (find?_bind_of_ne _ value hk).trans
        ((find?_filter_of_ne _ hk).trans (ih.trans (find?_bind_of_ne rest value hk).symm))

end Scope

namespace Value

def typeName : Value → String
  | .unit => "Unit"
  | .integer _ => "Integer"
  | .string _ => "String"
  | .tuple _ => "Tuple"
  | .function .. => "Function"
  | .variant .. => "Variant"
  | .constructor .. => "VariantConstructorFn"
  | .builtin _ => "BuiltInFn"
  | .other name _ => name

/-- A truth value. -/
def ofBool (b : Bool) : Value := .integer (if b then 1 else 0)

def isCallable : Value → Bool
  | .function .. | .constructor .. | .builtin _ => true
  | _ => false

def isUnit : Value → Bool
  | .unit => true
  | _ => false

end Value

end Fern
