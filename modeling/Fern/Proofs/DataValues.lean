import Fern.Proofs.DataReading
import Fern.Proofs.SharedTypes

/-!
# Data and its display

The values that can be written down: the unit value, numbers from zero on, texts without carriage
returns, tuples of at least two items and variants of the types of a program, with a payload exactly
where one is declared. A variant with a declared payload may not carry the unit value, because it
would be displayed without it.

Each of them is the value of an expression, and its display is the text of that expression.
-/

namespace Fern

namespace Value

/-- The values that can be written down in terms of the types of a program. -/
inductive IsData (program : Program) : Value → Prop
  | unit : IsData program .unit
  | integer {n : Int} (hpos : 0 ≤ n) (hmax : n ≤ maxInteger) : IsData program (.integer n)
  | string {text : String} (h : '\r' ∉ text.toList) : IsData program (.string text)
  | tuple {items : List Value} (hsize : 2 ≤ items.length)
      (hitems : ∀ item ∈ items, IsData program item) : IsData program (.tuple items)
  | bare {place index : Nat} {def_ : TypeDef} {variant : Variant}
      (hdef : program.types[place]? = some def_)
      (hvariant : def_.variants[index]? = some variant) (hnone : variant.payload = none) :
      IsData program (.variant ⟨place, def_.name⟩ index .unit)
  | loaded {place index : Nat} {def_ : TypeDef} {variant : Variant} {payload : Value}
      (hdef : program.types[place]? = some def_)
      (hvariant : def_.variants[index]? = some variant) (hsome : variant.payload.isSome)
      (hpayload : IsData program payload) (hunit : payload.isUnit = false) :
      IsData program (.variant ⟨place, def_.name⟩ index payload)

mutual

/-- The expression that data is the value of. What is no data has none. -/
def toTerm (types : List TypeDef) : Value → Term
  | .unit => .unit
  | .integer n => .integer n
  | .string text => .string text
  | .tuple items => .tuple (allToTerm types items)
  | .variant handle index payload =>
    let head := Term.constructor (variantName types handle index)
    if payload.isUnit then head else .apply head [payload.toTerm types]
  | value => .other value.typeName .none

def allToTerm (types : List TypeDef) : List Value → List Term
  | [] => []
  | value :: rest => value.toTerm types :: allToTerm types rest

end

mutual

/-- How many evaluations stand inside each other when the expression of data is evaluated. -/
def depth : Value → Nat
  | .tuple items => depthAll items + 1
  | .variant _ _ payload => payload.depth + 1
  | _ => 1

def depthAll : List Value → Nat
  | [] => 0
  | value :: rest => max value.depth (depthAll rest)

end

/-- The characters that a value is displayed by. -/
def chars (types : List TypeDef) (value : Value) : List Char := (value.format types).toList

section Display

variable {types : List TypeDef}

theorem allToTerm_eq_map (items : List Value) :
    allToTerm types items = items.map (toTerm types) := by
  induction items with
  | nil => rfl
  | cons value rest ih => rw [allToTerm, List.map_cons, ih]

theorem formatAll_eq_map (items : List Value) :
    formatAll types items = items.map (format types) := by
  induction items with
  | nil => rfl
  | cons value rest ih => rw [formatAll, List.map_cons, ih]

theorem chars_unit : chars types .unit = "()".toList := rfl

theorem chars_integer {n : Int} (h : 0 ≤ n) :
    chars types (.integer n) = Nat.toDigits 10 n.toNat := by
  obtain ⟨k, rfl⟩ := Int.eq_ofNat_of_zero_le h
  rw [chars, format, show toString (k : Int) = k.repr from rfl, Nat.toList_repr, Int.toNat_natCast]

theorem escapeChar_eq_writeChar {c : Char} (h : c ≠ '\r') : escapeChar c = writeChar c := by
  unfold writeChar
  split
  case h_4 => exact absurd rfl h
  case h_6 =>
      unfold escapeChar
      split <;> first | contradiction | rfl
  all_goals rfl

/-- The display of a text is a literal for it if nothing in it ends a line in another way. -/
theorem chars_string {text : String} (h : '\r' ∉ text.toList) :
    chars types (.string text) = (Word.literal text).chars := by
  have hescape : text.toList.flatMap escapeChar = text.toList.flatMap writeChar := by
    refine List.flatMap_congr fun c hc => escapeChar_eq_writeChar ?_
    rintro rfl
    exact h hc
  rw [chars, format, displayText, String.toList_append, String.toList_append, String.toList_ofList,
    String.toList_ofList, hescape]
  rfl

theorem commaSeparated_eq (texts : List String) :
    (", ".intercalate texts).toList = Parser.commaSeparated (texts.map String.toList) := by
  match texts with
  | [] => rfl
  | [text] =>
      rw [String.intercalate_singleton]
      exact (List.append_nil _).symm
  | first :: second :: rest =>
      have ih := commaSeparated_eq (second :: rest)
      rw [String.intercalate_cons_cons, String.toList_append, String.toList_append, ih]
      simp [Parser.commaSeparated]

theorem chars_tuple (items : List Value) : chars types (.tuple items) =
    '(' :: Parser.commaSeparated (items.map (chars types)) ++ [')'] := by
  rw [chars, format, formatAll_eq_map, String.toList_append, String.toList_append,
    commaSeparated_eq, List.map_map]
  rfl

theorem variantName_of_getElem? {place index : Nat} {def_ : TypeDef} {variant : Variant}
    (hdef : types[place]? = some def_) (hvariant : def_.variants[index]? = some variant)
    (name : String) : variantName types ⟨place, name⟩ index = variant.name := by
  have hfind : TypeHandle.find? types ⟨place, name⟩ = some def_ :=
    (if_pos (Int.natCast_nonneg place)).trans hdef
  have hindex : def_.variant? index = some variant :=
    (if_pos (Int.natCast_nonneg index)).trans hvariant
  rw [variantName, hfind, Option.bind_some, hindex]

theorem chars_bare (handle : TypeHandle) (index : Int) :
    chars types (.variant handle index .unit) = (variantName types handle index).toList := rfl

theorem chars_loaded (handle : TypeHandle) (index : Int) {payload : Value}
    (h : payload.isUnit = false) : chars types (.variant handle index payload) =
      (variantName types handle index).toList ++ ' ' ::
        (if payload.isLoadedVariant then '(' :: chars types payload ++ [')']
        else chars types payload) := by
  rw [chars, format, if_neg (by rw [h]; decide), String.toList_append, String.toList_append]
  split
  · rw [String.toList_append, String.toList_append, List.append_assoc]
    rfl
  · rw [List.append_assoc]
    rfl

end Display

end Value

end Fern
