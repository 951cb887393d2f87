/-!
# Classes of characters

The classes that the printed texts depend on, each given by the ranges of its code points in the
Unicode standard, version 14: blanks, digits, the letters and digits of the Latin, Greek and
Cyrillic scripts. Membership is one search through the ranges, so a class is data and nothing else.
The class of printable characters is large and has a module of its own.
-/

namespace Fern.Text

/-- A set of characters, given by closed ranges of code points. -/
abbrev Charset := List (Nat × Nat)

/-- Whether a character lies in one of the ranges. -/
def Charset.has (set : Charset) (c : Char) : Bool :=
  set.any fun range => range.1 ≤ c.toNat && c.toNat ≤ range.2

theorem Charset.has_iff {set : Charset} {c : Char} :
    set.has c ↔ ∃ range ∈ set, range.1 ≤ c.toNat ∧ c.toNat ≤ range.2 := by
  rw [Charset.has, List.any_eq_true]
  simp only [Bool.and_eq_true, decide_eq_true_iff]

/-- The blanks that separate words: spaces of every width, line and paragraph ends, and the
separators among the control characters. -/
def blanks : Charset :=
  [(0x9, 0xd), (0x1c, 0x20), (0x85, 0x85), (0xa0, 0xa0), (0x1680, 0x1680), (0x2000, 0x200a),
  (0x2028, 0x2029), (0x202f, 0x202f), (0x205f, 0x205f), (0x3000, 0x3000)]

/-- The characters that stand for one decimal digit, superscripts and circled digits included. -/
def digits : Charset :=
  [(0x30, 0x39), (0xb2, 0xb3), (0xb9, 0xb9), (0x660, 0x669), (0x6f0, 0x6f9), (0x7c0, 0x7c9),
  (0x966, 0x96f), (0x9e6, 0x9ef), (0xa66, 0xa6f), (0xae6, 0xaef), (0xb66, 0xb6f), (0xbe6, 0xbef),
  (0xc66, 0xc6f), (0xce6, 0xcef), (0xd66, 0xd6f), (0xde6, 0xdef), (0xe50, 0xe59), (0xed0, 0xed9),
  (0xf20, 0xf29), (0x1040, 0x1049), (0x1090, 0x1099), (0x1369, 0x1371), (0x17e0, 0x17e9),
  (0x1810, 0x1819), (0x1946, 0x194f), (0x19d0, 0x19da), (0x1a80, 0x1a89), (0x1a90, 0x1a99),
  (0x1b50, 0x1b59), (0x1bb0, 0x1bb9), (0x1c40, 0x1c49), (0x1c50, 0x1c59), (0x2070, 0x2070),
  (0x2074, 0x2079), (0x2080, 0x2089), (0x2460, 0x2468), (0x2474, 0x247c), (0x2488, 0x2490),
  (0x24ea, 0x24ea), (0x24f5, 0x24fd), (0x24ff, 0x24ff), (0x2776, 0x277e), (0x2780, 0x2788),
  (0x278a, 0x2792), (0xa620, 0xa629), (0xa8d0, 0xa8d9), (0xa900, 0xa909), (0xa9d0, 0xa9d9),
  (0xa9f0, 0xa9f9), (0xaa50, 0xaa59), (0xabf0, 0xabf9), (0xff10, 0xff19), (0x104a0, 0x104a9),
  (0x10a40, 0x10a43), (0x10d30, 0x10d39), (0x10e60, 0x10e68), (0x11052, 0x1105a),
  (0x11066, 0x1106f), (0x110f0, 0x110f9), (0x11136, 0x1113f), (0x111d0, 0x111d9),
  (0x112f0, 0x112f9), (0x11450, 0x11459), (0x114d0, 0x114d9), (0x11650, 0x11659),
  (0x116c0, 0x116c9), (0x11730, 0x11739), (0x118e0, 0x118e9), (0x11950, 0x11959),
  (0x11c50, 0x11c59), (0x11d50, 0x11d59), (0x11da0, 0x11da9), (0x16a60, 0x16a69),
  (0x16ac0, 0x16ac9), (0x16b50, 0x16b59), (0x1d7ce, 0x1d7ff), (0x1e140, 0x1e149),
  (0x1e2f0, 0x1e2f9), (0x1e950, 0x1e959), (0x1f100, 0x1f10a), (0x1fbf0, 0x1fbf9)]

/-- The letters and digits of the Latin, Greek and Cyrillic scripts. -/
def europeanWords : Charset :=
  [(0x30, 0x39), (0x41, 0x5a), (0x61, 0x7a), (0xaa, 0xaa), (0xb2, 0xb3), (0xb5, 0xb5),
  (0xb9, 0xba), (0xc0, 0xd6), (0xd8, 0xf6), (0xf8, 0x24f), (0x370, 0x374), (0x376, 0x377),
  (0x37a, 0x37d), (0x37f, 0x37f), (0x386, 0x386), (0x388, 0x38a), (0x38c, 0x38c), (0x38e, 0x3a1),
  (0x3a3, 0x3e1), (0x3f0, 0x3f5), (0x3f7, 0x481), (0x48a, 0x52f), (0x1c80, 0x1c88),
  (0x1d26, 0x1d2b), (0x1d5e, 0x1d5e), (0x1d60, 0x1d60), (0x1d66, 0x1d6a), (0x1d78, 0x1d78),
  (0x1f00, 0x1f15), (0x1f18, 0x1f1d), (0x1f20, 0x1f45), (0x1f48, 0x1f4d), (0x1f50, 0x1f57),
  (0x1f59, 0x1f59), (0x1f5b, 0x1f5b), (0x1f5d, 0x1f5d), (0x1f5f, 0x1f7d), (0x1f80, 0x1fb4),
  (0x1fb6, 0x1fbc), (0x1fbe, 0x1fbe), (0x1fc2, 0x1fc4), (0x1fc6, 0x1fcc), (0x1fd0, 0x1fd3),
  (0x1fd6, 0x1fdb), (0x1fe0, 0x1fec), (0x1ff2, 0x1ff4), (0x1ff6, 0x1ffc), (0xa640, 0xa66e),
  (0xa67f, 0xa69d), (0xab65, 0xab65)]

def isBlank (c : Char) : Bool := blanks.has c

/-- Whether a character is a digit of any script. -/
def isDigit (c : Char) : Bool := digits.has c

def isWordChar (c : Char) : Bool := europeanWords.has c

theorem isBlank_of_isWhitespace {c : Char} (h : c.isWhitespace) : isBlank c := by
  simp only [Char.isWhitespace, Bool.or_eq_true, decide_eq_true_iff] at h
  obtain ((rfl | rfl) | rfl) | rfl := h <;> decide

theorem isDigit_of_ascii {c : Char} (h : c.isDigit) : isDigit c := by
  simp only [Char.isDigit, Bool.and_eq_true, decide_eq_true_iff] at h
  exact Charset.has_iff.2 ⟨(0x30, 0x39), List.mem_cons_self, h.1, h.2⟩

theorem isWordChar_of_isAlphanum {c : Char} (h : c.isAlphanum) : isWordChar c := by
  rcases Bool.or_eq_true_iff.1 (show (c.isAlpha || c.isDigit) = true from h) with h | h
  · rcases Bool.or_eq_true_iff.1 (show (c.isUpper || c.isLower) = true from h) with h | h
    · obtain ⟨low, high⟩ := of_decide_eq_true h
      exact Charset.has_iff.2 ⟨(0x41, 0x5a), by decide, low, high⟩
    · obtain ⟨low, high⟩ := Bool.and_eq_true_iff.1 h
      exact Charset.has_iff.2
        ⟨(0x61, 0x7a), by decide, of_decide_eq_true low, of_decide_eq_true high⟩
  · obtain ⟨low, high⟩ := Bool.and_eq_true_iff.1 h
    exact Charset.has_iff.2 ⟨(0x30, 0x39), by decide, of_decide_eq_true low, of_decide_eq_true high⟩

/-- Drops the blanks at both ends of a text. -/
def strip (text : List Char) : List Char :=
  ((text.dropWhile isBlank).reverse.dropWhile isBlank).reverse

def stripText (text : String) : String := String.ofList (strip text.toList)

end Fern.Text
