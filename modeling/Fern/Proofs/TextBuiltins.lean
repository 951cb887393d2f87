import Fern.Builtin.Call
import Mathlib.Algebra.Group.Nat.Defs

/-!
# Numerals and cuts

Two built-in functions take texts apart, and what they look for can be said without
saying how they look. A text denotes an integer if it is made of digits behind at most
one sign, and each digit counts by its place. A text is cut at a separator where the
separator occurs first, in characters from the start.

Reading an integer is then one case for each of the three things that a text can be:
the numeral of an integer that fits a word, that of another one, and no numeral at all.
-/

namespace Fern

namespace Text

/-! ## Numerals -/

/-- A run of the ten ASCII digits, of which there is one at least. -/
structure IsDigits (text : List Char) : Prop where
  nonempty : text ≠ []
  digits : ∀ c ∈ text, '0' ≤ c ∧ c ≤ '9'

/-- The number that digits denote by their places: the last digit counts ones, and each other
digit ten times what the next one counts. -/
def placeValue : List Char → Nat
  | [] => 0
  | c :: rest => (c.toNat - '0'.toNat) * 10 ^ rest.length + placeValue rest

/-- A text is the decimal numeral of an integer. -/
inductive Denotes : List Char → Int → Prop
  | plain {digits : List Char} (h : IsDigits digits) : Denotes digits (placeValue digits)
  | plus {digits : List Char} (h : IsDigits digits) : Denotes ('+' :: digits) (placeValue digits)
  | minus {digits : List Char} (h : IsDigits digits) : Denotes ('-' :: digits) (-placeValue digits)

theorem isDigit_iff {c : Char} : c.isDigit ↔ '0' ≤ c ∧ c ≤ '9' := by
  rw [Char.isDigit, Bool.and_eq_true, decide_eq_true_eq, decide_eq_true_eq]
  rfl

theorem decimalValue_eq_placeValue (text : List Char) : decimalValue text = placeValue text := by
  induction text with
  | nil => rfl
  | cons c rest ih =>
      rw [placeValue, ← ih, decimalValue, Nat.ofDigitChars_cons, Nat.mul_zero, Nat.zero_add,
        Nat.ofDigitChars_eq_ofDigitChars_zero, Nat.mul_comm]
      rfl

theorem natural?_eq_some_iff {text : List Char} {n : Nat} :
    natural? text = some n ↔ IsDigits text ∧ n = placeValue text := by
  have hdigits : (!text.isEmpty && text.all Char.isDigit) = true ↔ IsDigits text := by
    rw [Bool.and_eq_true, Bool.not_eq_true', List.isEmpty_eq_false_iff, List.all_eq_true]
    refine ⟨fun h => ⟨h.1, fun c hc => isDigit_iff.1 (h.2 c hc)⟩, fun h => ?_⟩
    exact ⟨h.nonempty, fun c hc => isDigit_iff.2 (h.digits c hc)⟩
  rw [natural?, decimalValue_eq_placeValue]
  split
  · next h =>
    rw [Option.some.injEq, eq_comm]
    exact ⟨fun heq => ⟨hdigits.1 h, heq⟩, And.right⟩
  · next h =>
    refine ⟨fun heq => ?_, fun hd => absurd (hdigits.2 hd.1) h⟩
    cases heq

/-- No digit is a sign. -/
theorem IsDigits.not_sign {sign : Char} {rest : List Char} (h : IsDigits (sign :: rest)) :
    sign ≠ '-' ∧ sign ≠ '+' := by
  have hsign := isDigit_iff.2 (h.digits sign List.mem_cons_self)
  constructor <;> rintro rfl <;> exact absurd hsign (by decide)

/-- A text is read as an integer exactly if it is the numeral of that integer. -/
theorem integer?_eq_some_iff {text : List Char} {n : Int} :
    integer? text = some n ↔ Denotes text n := by
  constructor
  · intro h
    unfold integer? at h
    split at h
    all_goals
      obtain ⟨_, hcast, rfl⟩ := Option.map_eq_some_iff.1 h
      obtain ⟨m, hm, hvalue⟩ := Option.bind_eq_some_iff.1 hcast
      cases hvalue
      obtain ⟨hdigits, rfl⟩ := natural?_eq_some_iff.1 hm
    · exact .minus hdigits
    · exact .plus hdigits
    · exact .plain hdigits
  · intro h
    cases h with
    | @plain digits h =>
        have hread := natural?_eq_some_iff.2 ⟨h, rfl⟩
        unfold integer?
        split
        · exact absurd rfl h.not_sign.1
        · exact absurd rfl h.not_sign.2
        · rw [hread]
          rfl
    | plus h =>
        rw [integer?, natural?_eq_some_iff.2 ⟨h, rfl⟩]
        rfl
    | minus h =>
        rw [integer?, natural?_eq_some_iff.2 ⟨h, rfl⟩]
        rfl

/-! ## Cuts -/

/-- Nothing occurs in front of the place of a cut. -/
theorem not_prefix_of_cutAt? {separator text before behind : List Char}
    (h : cutAt? separator text = some (before, behind)) {i : Nat} (hi : i < before.length) :
    ¬separator <+: text.drop i := by
  induction text generalizing before i with
  | nil =>
      rw [cutAt?] at h
      split at h
      · cases h
        cases hi
      · cases h
  | cons c rest ih =>
      rw [cutAt?] at h
      split at h
      · cases h
        cases hi
      · next hfirst =>
        obtain ⟨⟨start, others⟩, hrest, heq⟩ := Option.map_eq_some_iff.1 h
        cases heq
        cases i with
        | zero => exact fun hp => hfirst (List.isPrefixOf_iff_prefix.2 hp)
        | succ i => exact ih hrest (Nat.lt_of_succ_lt_succ hi)

theorem cutAt?_eq_none_iff {separator text : List Char} :
    cutAt? separator text = none ↔ ¬separator <:+: text := by
  rw [← isSome_cutAt?_iff, Option.not_isSome_iff_eq_none]

end Text

/-! ## Reading integers -/

section Integers

variable {text : String} {n : Int}

theorem parseInteger_of_fits (h : Text.Denotes text.toList n) (hfits : InRange n) :
    parseInteger text = pure (.integer n) := by
  rw [parseInteger, Text.integer?_eq_some_iff.2 h]
  exact if_pos hfits

theorem parseInteger_of_not_fits (h : Text.Denotes text.toList n) (hfits : ¬InRange n) :
    parseInteger text = Run.fail (.integerRange text) := by
  rw [parseInteger, Text.integer?_eq_some_iff.2 h]
  exact if_neg hfits

theorem parseInteger_of_no_numeral (h : ∀ n, ¬Text.Denotes text.toList n) :
    parseInteger text = Run.fail (.notInteger text) := by
  have hnone : Text.integer? text.toList = none :=
    Option.eq_none_iff_forall_ne_some.2 fun n hn => h n (Text.integer?_eq_some_iff.1 hn)
  rw [parseInteger, hnone]

/-- A text that is not the numeral of an integer that fits a word is the host's failure. -/
theorem parseInteger_fails (h : ∀ n, Text.Denotes text.toList n → ¬InRange n) :
    ∃ error, error.category = .host ∧ parseInteger text = Run.fail error := by
  by_cases hnumeral : ∃ n, Text.Denotes text.toList n
  · obtain ⟨n, hn⟩ := hnumeral
    exact ⟨_, rfl, parseInteger_of_not_fits hn (h n hn)⟩
  · exact ⟨_, rfl, parseInteger_of_no_numeral (not_exists.1 hnumeral)⟩

theorem parseInteger_eq_pure_iff :
    parseInteger text = pure (.integer n) ↔ Text.Denotes text.toList n ∧ InRange n := by
  refine ⟨fun h => ?_, fun h => parseInteger_of_fits h.1 h.2⟩
  by_cases hfits : ∃ m, Text.Denotes text.toList m ∧ InRange m
  · obtain ⟨m, hm, hrange⟩ := hfits
    have heq := (parseInteger_of_fits hm hrange).symm.trans h
    cases congrFun heq {}
    exact ⟨hm, hrange⟩
  · obtain ⟨error, -, hfail⟩ := parseInteger_fails fun m hm hrange => hfits ⟨m, hm, hrange⟩
    cases congrFun (hfail.symm.trans h) {}

end Integers

/-- The built-in function that reads integers gives an integer exactly for the decimal numerals
of those that fit a word, namely the one that is denoted, and fails by the host for every other
text; and what is written for an integer is read back as that integer. -/
theorem reads_decimal_numerals (files : FileSystem) :
    (∀ text n, callBuiltin files Builtin.parseInt.id (.string text) = pure (.integer n) ↔
      Text.Denotes text.toList n ∧ InRange n) ∧
    (∀ text, (∀ n, Text.Denotes text.toList n → ¬InRange n) →
      ∃ error, error.category = .host ∧
        callBuiltin files Builtin.parseInt.id (.string text) = Run.fail error) ∧
    ∀ n, InRange n → ∃ text,
      (callBuiltin files Builtin.printInt.id (.integer n) = do Run.write text; return .unit) ∧
        callBuiltin files Builtin.parseInt.id (.string text) = pure (.integer n) := by
  have hread (text : String) :
      callBuiltin files Builtin.parseInt.id (.string text) = parseInteger text := rfl
  refine ⟨fun text n => ?_, fun text h => ?_, fun n hfits => ⟨toString n, rfl, ?_⟩⟩
  · rw [hread, parseInteger_eq_pure_iff]
  · rw [hread]
    exact parseInteger_fails h
  · rw [hread]
    exact parseInteger_of_fits (Text.integer?_eq_some_iff.1 (Text.integer?_toString n)) hfits

/-! ## Splitting texts -/

theorem splitText_of_not_occurs {text separator : String}
    (h : ¬separator.toList <:+: text.toList) : splitText text separator = (text, "") := by
  rw [splitText, Text.cutAt?_eq_none_iff.2 h]

/-- A text is cut at the first occurrence of the separator. -/
theorem splitText_of_occurs {text separator : String} (h : separator.toList <:+: text.toList) :
    text = (splitText text separator).1 ++ separator ++ (splitText text separator).2 ∧
      ∀ i < (splitText text separator).1.length, ¬separator.toList <+: text.toList.drop i := by
  obtain ⟨⟨before, behind⟩, hcut⟩ :=
    Option.isSome_iff_exists.1 (Text.isSome_cutAt?_iff.2 h)
  rw [splitText, hcut]
  refine ⟨String.toList_inj.1 ?_, fun i hi => Text.not_prefix_of_cutAt? hcut ?_⟩
  · rw [String.toList_append, String.toList_append, String.toList_ofList, String.toList_ofList]
    exact Text.eq_of_cutAt? hcut
  · rwa [String.length_ofList] at hi

/-- The built-in function that splits texts gives a pair for every text and separator. If the
separator does not occur, the pair is the text and the empty text; else the parts with the
separator between them are the text, and the separator occurs nowhere before the end of the first
part. -/
theorem splits_at_first_occurrence (files : FileSystem) (text separator : String) :
    ∃ before behind,
      callBuiltin files Builtin.split.id (.tuple [.string text, .string separator]) =
          pure (.tuple [.string before, .string behind]) ∧
        (¬separator.toList <:+: text.toList ∧ before = text ∧ behind = "" ∨
          text = before ++ separator ++ behind ∧
            ∀ i < before.length, ¬separator.toList <+: text.toList.drop i) := by
  refine ⟨(splitText text separator).1, (splitText text separator).2, rfl, ?_⟩
  by_cases h : separator.toList <:+: text.toList
  · exact .inr (splitText_of_occurs h)
  · rw [splitText_of_not_occurs h]
    exact .inl ⟨h, rfl, rfl⟩

/-- Of occurrences that overlap the first one counts. -/
example : splitText "xababa" "aba" = ("x", "ba") := by decide

end Fern
