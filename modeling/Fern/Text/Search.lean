/-!
# Searching in texts

Cutting a text at the first occurrence of another. The empty text occurs at the very start.
-/

namespace Fern.Text

/-- What stands before and behind the first occurrence of a separator, if it occurs. -/
def cutAt? (separator : List Char) : List Char → Option (List Char × List Char)
  | [] => if separator.isEmpty then some ([], []) else none
  | c :: rest =>
    if separator.isPrefixOf (c :: rest) then some ([], (c :: rest).drop separator.length)
    else (cutAt? separator rest).map fun (before, behind) => (c :: before, behind)

/-- The parts of a cut, with the separator between them, are the text. -/
theorem eq_of_cutAt? {separator text before behind : List Char}
    (h : cutAt? separator text = some (before, behind)) : text = before ++ separator ++ behind := by
  induction text generalizing before with
  | nil =>
    rw [cutAt?] at h
    split at h
    · next he =>
      cases h
      rw [List.isEmpty_iff.1 he]
      rfl
    · cases h
  | cons c rest ih =>
    rw [cutAt?] at h
    split at h
    · next hp =>
      cases h
      exact List.prefix_iff_eq_append.1 (List.isPrefixOf_iff_prefix.1 hp) |>.symm
    · obtain ⟨⟨start, others⟩, hr, he⟩ := Option.map_eq_some_iff.1 h
      cases he
      rw [ih hr]
      rfl

/-- A text can be cut exactly at what occurs in it. -/
theorem isSome_cutAt?_iff {separator text : List Char} :
    (cutAt? separator text).isSome ↔ separator <:+: text := by
  induction text with
  | nil =>
    rw [cutAt?, List.infix_nil]
    cases separator <;> simp
  | cons c rest ih =>
    rw [cutAt?, List.infix_cons_iff, ← ih]
    by_cases hp : separator.isPrefixOf (c :: rest)
    · rw [if_pos hp]
      exact ⟨fun _ => .inl (List.isPrefixOf_iff_prefix.1 hp), fun _ => rfl⟩
    · rw [if_neg hp, Option.isSome_map]
      exact ⟨.inr, fun h => h.resolve_left fun h => hp (List.isPrefixOf_iff_prefix.2 h)⟩

/-- Whether a text occurs in another. -/
def occursIn (part text : List Char) : Bool := (cutAt? part text).isSome

end Fern.Text
