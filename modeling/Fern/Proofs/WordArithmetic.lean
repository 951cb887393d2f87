import Fern.Proofs.WordRange

/-!
# Operators are exact

What the operators do on two signed words of 64 bits, said without reference to how they do it. Sums,
differences and products are the mathematical ones or refused. Quotients are rounded toward zero, so
that the remainder, which belongs to the quotient, is smaller than the divisor and on the side of the
dividend. The bit operations, which know no width, agree with those on words of 64 bits, as reading
a number as a word of any width commutes with them.

Main statement: `onIntegers_exact`.
-/

namespace Fern

variable {lhs rhs : Int}

/-! ## Quotients and remainders -/

/-- A quotient leaves the range only where the sign of the least number is turned. -/
theorem inRange_tdiv_iff (hl : InRange lhs) :
    InRange (lhs.tdiv rhs) ↔ ¬(lhs = minInteger ∧ rhs = -1) := by
  constructor
  · rintro hq ⟨rfl, rfl⟩
    exact absurd hq (by decide)
  · intro hne
    have habs : (lhs.tdiv rhs).natAbs = lhs.natAbs / rhs.natAbs := Int.natAbs_tdiv lhs rhs
    simp only [InRange, minInteger, maxInteger] at hl hne ⊢
    by_cases hunit : rhs.natAbs = 1
    · rcases (by omega : rhs = 1 ∨ rhs = -1) with rfl | rfl
      · rw [Int.tdiv_one]
        exact hl
      · rw [Int.tdiv_neg, Int.tdiv_one]
        omega
    · have hhalf : lhs.natAbs / rhs.natAbs ≤ lhs.natAbs / 2 := by
        rcases Nat.eq_zero_or_pos rhs.natAbs with hzero | hpos
        · rw [hzero, Nat.div_zero]
          exact Nat.zero_le _
        · exact Nat.div_le_div_left (by omega) (by decide)
      omega

theorem tmod_eq_zero_or_sign (lhs rhs : Int) :
    lhs.tmod rhs = 0 ∨ (lhs.tmod rhs).sign = lhs.sign := by
  rw [Int.sign_tmod]
  split
  · next hdvd => exact .inl (Int.tmod_eq_zero_of_dvd hdvd)
  · exact .inr rfl

/-! ## Bits -/

section Bits

variable {width : Nat}

theorem ofNat_bitDiff (m n : Nat) :
    BitVec.ofNat width (bitDiff m n) = BitVec.ofNat width m &&& ~~~BitVec.ofNat width n := by
  rw [bitDiff, BitVec.ofNat_xor, BitVec.ofNat_and]
  refine BitVec.eq_of_getLsbD_eq fun i hi => ?_
  simp only [BitVec.getLsbD_xor, BitVec.getLsbD_and, BitVec.getLsbD_not, hi, decide_true,
    Bool.true_and]
  cases (BitVec.ofNat width m).getLsbD i
  · rfl
  · exact Bool.true_xor _

theorem ofInt_bitAnd (lhs rhs : Int) :
    BitVec.ofInt width (bitAnd lhs rhs) = BitVec.ofInt width lhs &&& BitVec.ofInt width rhs := by
  cases lhs with
  | ofNat m =>
      cases rhs with
      | ofNat n => exact BitVec.ofNat_and
      | negSucc n =>
          rw [BitVec.ofInt_negSucc_eq_not_ofNat]
          exact ofNat_bitDiff m n
  | negSucc m =>
      cases rhs with
      | ofNat n =>
          rw [BitVec.ofInt_negSucc_eq_not_ofNat, BitVec.and_comm]
          exact ofNat_bitDiff n m
      | negSucc n =>
          rw [bitAnd]
          simp only [BitVec.ofInt_negSucc_eq_not_ofNat, BitVec.ofNat_or, BitVec.not_or]

theorem ofInt_bitOr (lhs rhs : Int) :
    BitVec.ofInt width (bitOr lhs rhs) = BitVec.ofInt width lhs ||| BitVec.ofInt width rhs := by
  cases lhs with
  | ofNat m =>
      cases rhs with
      | ofNat n => exact BitVec.ofNat_or
      | negSucc n =>
          rw [bitOr]
          rw [BitVec.ofInt_negSucc_eq_not_ofNat, BitVec.ofInt_negSucc_eq_not_ofNat, ofNat_bitDiff,
            BitVec.not_and, BitVec.not_not, BitVec.or_comm]
          rfl
  | negSucc m =>
      cases rhs with
      | ofNat n =>
          rw [bitOr]
          rw [BitVec.ofInt_negSucc_eq_not_ofNat, BitVec.ofInt_negSucc_eq_not_ofNat, ofNat_bitDiff,
            BitVec.not_and, BitVec.not_not]
          rfl
      | negSucc n =>
          rw [bitOr]
          simp only [BitVec.ofInt_negSucc_eq_not_ofNat, BitVec.ofNat_and, BitVec.not_and]

theorem toInt_ofInt_of_inRange {n : Int} (h : InRange n) : (BitVec.ofInt 64 n).toInt = n :=
  BitVec.toInt_ofInt_eq_self (by decide) h.1 (Int.lt_add_one_of_le h.2)

end Bits

/-! ## Operators -/

/-- An operator gives a number if that is in range, and refuses it otherwise. -/
structure GivesOrOverflows (run : Operator → Except ArithmeticError Int) (op : Operator)
    (n : Int) : Prop where
  gives : InRange n → run op = .ok n
  overflows : ¬InRange n → run op = .error (.overflow op n)

/-- What arithmetic on two signed words of 64 bits has to be. -/
structure IsWordArithmetic (run : Operator → Except ArithmeticError Int) (lhs rhs : Int) :
    Prop where
  add : GivesOrOverflows run .add (lhs + rhs)
  sub : GivesOrOverflows run .sub (lhs - rhs)
  mul : GivesOrOverflows run .mul (lhs * rhs)
  divisionByZero : ∀ op ∈ [Operator.div, .mod],
    run op = .error (.divisionByZero op) ↔ rhs = 0
  div_overflows : (∃ n, run .div = .error (.overflow .div n)) ↔ lhs = minInteger ∧ rhs = -1
  div_gives : rhs ≠ 0 → ¬(lhs = minInteger ∧ rhs = -1) → ∃ q, run .div = .ok q
  mod_gives : rhs ≠ 0 → ∃ r, run .mod = .ok r
  /-- Quotient and remainder make up the dividend. -/
  division : ∀ q r, run .div = .ok q → run .mod = .ok r → lhs = rhs * q + r
  /-- This holds where the quotient is refused, too. -/
  remainder : ∀ r, run .mod = .ok r → r.natAbs < rhs.natAbs ∧ (r = 0 ∨ r.sign = lhs.sign)
  and : run .and = .ok (BitVec.ofInt 64 lhs &&& BitVec.ofInt 64 rhs).toInt
  or : run .or = .ok (BitVec.ofInt 64 lhs ||| BitVec.ofInt 64 rhs).toInt
  less : run .less = .ok (if lhs < rhs then 1 else 0)
  lessEq : run .lessEq = .ok (if lhs ≤ rhs then 1 else 0)
  greater : run .greater = .ok (if lhs > rhs then 1 else 0)
  greaterEq : run .greaterEq = .ok (if lhs ≥ rhs then 1 else 0)
  equals : run .equals = .ok (if lhs = rhs then 1 else 0)
  inRange : ∀ op n, run op = .ok n → InRange n

theorem givesOrOverflows_of_checked {run : Operator → Except ArithmeticError Int} {op : Operator}
    {n : Int} (h : run op = checked op n) : GivesOrOverflows run op n where
  gives hn := h.trans (if_pos hn)
  overflows hn := h.trans (if_neg hn)

theorem onIntegers_div (hr : rhs ≠ 0) :
    Operator.div.onIntegers lhs rhs = checked .div (lhs.tdiv rhs) := by
  rw [Operator.onIntegers, if_neg hr, truncatingDiv_eq_tdiv]

theorem onIntegers_mod (hr : rhs ≠ 0) : Operator.mod.onIntegers lhs rhs = .ok (lhs.tmod rhs) := by
  rw [Operator.onIntegers, if_neg hr, truncatingMod_eq_tmod]

/-- Only zero is refused as a divisor. -/
theorem onIntegers_divisionByZero {op : Operator} (h : op ∈ [Operator.div, .mod]) :
    op.onIntegers lhs rhs = .error (.divisionByZero op) ↔ rhs = 0 := by
  simp only [List.mem_cons, List.not_mem_nil, or_false] at h
  by_cases hr : rhs = 0
  · refine iff_of_true ?_ hr
    rcases h with rfl | rfl <;> exact if_pos hr
  · refine iff_of_false (fun hz => ?_) hr
    rcases h with rfl | rfl
    · rw [onIntegers_div hr, checked] at hz
      split at hz <;> cases hz
    · rw [onIntegers_mod hr] at hz
      cases hz

theorem eq_tdiv_of_onIntegers {q : Int} (h : Operator.div.onIntegers lhs rhs = .ok q) :
    q = lhs.tdiv rhs := by
  rw [Operator.onIntegers] at h
  split at h
  · cases h
  · rw [truncatingDiv_eq_tdiv, checked] at h
    split at h
    · exact (Except.ok.inj h).symm
    · cases h

theorem eq_tmod_of_onIntegers {r : Int} (h : Operator.mod.onIntegers lhs rhs = .ok r) :
    rhs ≠ 0 ∧ r = lhs.tmod rhs := by
  rw [Operator.onIntegers] at h
  split at h
  · cases h
  · next hr => exact ⟨hr, (Except.ok.inj h).symm.trans (truncatingMod_eq_tmod lhs rhs)⟩

theorem onIntegers_div_overflows (hl : InRange lhs) :
    (∃ n, Operator.div.onIntegers lhs rhs = .error (.overflow .div n)) ↔
      lhs = minInteger ∧ rhs = -1 := by
  constructor
  · rintro ⟨n, hn⟩
    refine Decidable.byContradiction fun hne => ?_
    by_cases hr : rhs = 0
    · rw [(onIntegers_divisionByZero List.mem_cons_self).2 hr] at hn
      cases hn
    · rw [onIntegers_div hr, checked, if_pos ((inRange_tdiv_iff hl).2 hne)] at hn
      cases hn
  · rintro ⟨rfl, rfl⟩
    exact ⟨_, rfl⟩

/-- On signed words of 64 bits, the operators are what they have to be. -/
theorem onIntegers_exact (hl : InRange lhs) (hr : InRange rhs) :
    IsWordArithmetic (·.onIntegers lhs rhs) lhs rhs := by
  have hq : ¬(lhs = minInteger ∧ rhs = -1) → InRange (lhs.tdiv rhs) := (inRange_tdiv_iff hl).2
  refine
    { add := givesOrOverflows_of_checked rfl
      sub := givesOrOverflows_of_checked rfl
      mul := givesOrOverflows_of_checked rfl
      divisionByZero := fun op h => onIntegers_divisionByZero h
      div_overflows := onIntegers_div_overflows hl
      div_gives := fun hz hne => ⟨_, (onIntegers_div hz).trans (if_pos (hq hne))⟩
      mod_gives := fun hz => ⟨_, onIntegers_mod hz⟩
      division := ?division
      remainder := ?remainder
      and := ?and
      or := ?or
      less := congrArg Except.ok (by simp [ofTruth])
      lessEq := congrArg Except.ok (by simp [ofTruth])
      greater := congrArg Except.ok (by simp [ofTruth])
      greaterEq := congrArg Except.ok (by simp [ofTruth])
      equals := congrArg Except.ok (by simp [ofTruth])
      inRange := fun _ _ h => inRange_onIntegers hl hr h }
  case division =>
    intro q r hdiv hmod
    obtain ⟨-, rfl⟩ := eq_tmod_of_onIntegers hmod
    rw [eq_tdiv_of_onIntegers hdiv]
    exact (Int.mul_tdiv_add_tmod lhs rhs).symm
  case remainder =>
    intro r hmod
    obtain ⟨hne, rfl⟩ := eq_tmod_of_onIntegers hmod
    refine ⟨?_, tmod_eq_zero_or_sign lhs rhs⟩
    rw [Int.natAbs_tmod]
    exact Nat.mod_lt _ (Int.natAbs_pos.2 hne)
  case and =>
    show Except.ok (bitAnd lhs rhs) = _
    rw [← ofInt_bitAnd, toInt_ofInt_of_inRange (inRange_bitAnd hl hr)]
  case or =>
    show Except.ok (bitOr lhs rhs) = _
    rw [← ofInt_bitOr, toInt_ofInt_of_inRange (inRange_bitOr hl hr)]

/-- The one quotient that is refused, and the remainder that goes with it all the same. -/
theorem onIntegers_exact_least :
    InRange minInteger ∧ InRange (-1) ∧
      IsWordArithmetic (·.onIntegers minInteger (-1)) minInteger (-1) ∧
      Operator.div.onIntegers minInteger (-1) = .error (.overflow .div (maxInteger + 1)) ∧
      Operator.mod.onIntegers minInteger (-1) = .ok 0 :=
  ⟨by decide, by decide, onIntegers_exact (by decide) (by decide), rfl, rfl⟩

end Fern
