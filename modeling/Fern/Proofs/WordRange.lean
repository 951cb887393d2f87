import Fern.Arithmetic
import Mathlib.Algebra.Group.Nat.Defs

/-!
# Operators stay within 64 bits

Sums, differences, products and quotients are looked at before they are handed
out. Remainders, bit operations and comparisons are not, and for them there is
something to show: a remainder is no further from zero than the dividend and on
the same side of it, and the bit operations make a number of at most 63 bits,
or the complement of one, from two such.
-/

namespace Fern

theorem inRange_ofNat {m : Nat} : InRange (.ofNat m) ↔ m < 2 ^ 63 := by
  simp only [InRange, minInteger, maxInteger, Int.ofNat_eq_natCast]
  omega

theorem inRange_negSucc {m : Nat} : InRange (.negSucc m) ↔ m < 2 ^ 63 := by
  simp only [InRange, minInteger, maxInteger, Int.negSucc_eq]
  omega

theorem inRange_ofTruth (b : Bool) : InRange (ofTruth b) := by
  cases b <;> decide

theorem inRange_of_checked {op : Operator} {n result : Int} (h : checked op n = .ok result) :
    InRange result := by
  rw [checked] at h
  split at h
  · next hn =>
    cases h
    exact hn
  · cases h

theorem inRange_tmod {lhs : Int} (h : InRange lhs) (rhs : Int) : InRange (lhs.tmod rhs) := by
  have habs : (lhs.tmod rhs).natAbs ≤ lhs.natAbs := by
    rw [Int.natAbs_tmod]
    exact Nat.mod_le ..
  obtain ⟨hmin, hmax⟩ := h
  rcases Int.le_total 0 lhs with hpos | hneg
  · have hs : 0 ≤ lhs.tmod rhs := Int.tmod_nonneg rhs hpos
    exact ⟨Int.le_trans (by decide) hs, by omega⟩
  · have hs : 0 ≤ (-lhs).tmod rhs := Int.tmod_nonneg rhs (by omega)
    rw [Int.neg_tmod] at hs
    exact ⟨by omega, Int.le_trans (by omega : lhs.tmod rhs ≤ 0) (by decide)⟩

/-! ## Bit operations -/

theorem bitDiff_lt {m : Nat} (h : m < 2 ^ 63) (n : Nat) : bitDiff m n < 2 ^ 63 := by
  have hand : m &&& n < 2 ^ 63 := Nat.lt_of_le_of_lt Nat.and_le_left h
  exact Nat.xor_lt_two_pow h hand

theorem inRange_bitAnd {lhs rhs : Int} (hl : InRange lhs) (hr : InRange rhs) :
    InRange (bitAnd lhs rhs) := by
  cases lhs with
  | ofNat m =>
      have hm := inRange_ofNat.1 hl
      cases rhs with
      | ofNat n => exact inRange_ofNat.2 (Nat.lt_of_le_of_lt Nat.and_le_left hm)
      | negSucc n => exact inRange_ofNat.2 (bitDiff_lt hm n)
  | negSucc m =>
      cases rhs with
      | ofNat n => exact inRange_ofNat.2 (bitDiff_lt (inRange_ofNat.1 hr) m)
      | negSucc n =>
          exact inRange_negSucc.2 (Nat.or_lt_two_pow (inRange_negSucc.1 hl) (inRange_negSucc.1 hr))

theorem inRange_bitOr {lhs rhs : Int} (hl : InRange lhs) (hr : InRange rhs) :
    InRange (bitOr lhs rhs) := by
  cases lhs with
  | ofNat m =>
      cases rhs with
      | ofNat n =>
          exact inRange_ofNat.2 (Nat.or_lt_two_pow (inRange_ofNat.1 hl) (inRange_ofNat.1 hr))
      | negSucc n => exact inRange_negSucc.2 (bitDiff_lt (inRange_negSucc.1 hr) m)
  | negSucc m =>
      have hm := inRange_negSucc.1 hl
      cases rhs with
      | ofNat n => exact inRange_negSucc.2 (bitDiff_lt hm n)
      | negSucc n => exact inRange_negSucc.2 (Nat.lt_of_le_of_lt Nat.and_le_left hm)

/-- No operator leads out of the range. -/
theorem inRange_onIntegers {op : Operator} {lhs rhs result : Int} (hl : InRange lhs)
    (hr : InRange rhs) (h : op.onIntegers lhs rhs = .ok result) : InRange result := by
  cases op with
  | add | sub | mul => exact inRange_of_checked h
  | div =>
      rw [Operator.onIntegers] at h
      split at h
      · cases h
      · exact inRange_of_checked h
  | mod =>
      rw [Operator.onIntegers] at h
      split at h
      · cases h
      · cases h
        rw [truncatingMod_eq_tmod]
        exact inRange_tmod hl rhs
  | less | lessEq | greater | greaterEq | equals =>
      cases h
      exact inRange_ofTruth _
  | and =>
      cases h
      exact inRange_bitAnd hl hr
  | or =>
      cases h
      exact inRange_bitOr hl hr
  | other name => cases h

end Fern
