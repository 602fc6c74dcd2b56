/-!
Numbers as they are written, the integers they spell, and which of them are in the range of a
double.

A number is taken over as a double in three steps, each rounded to the nearest double: its leading
digits, as many as fit a word of 64 bits, the power of ten they stand before, and the product of the
two. So the range ends near the greatest double, but not exactly there.
-/

namespace JavaRecipes

/-- A number as written, `± significand · 10 ^ exponent`. -/
structure Number where
  negative : Bool
  significand : Nat
  exponent : Int
  /-- Written without fraction and exponent. -/
  whole : Bool
  deriving DecidableEq, Repr

/-! ## Rounding -/

/-- The multiple of `unit` nearest to `n`; of two the even one. -/
def roundToUnit (unit n : Nat) : Nat :=
  let below := n / unit
  let rest := n % unit
  if 2 * rest < unit ∨ 2 * rest = unit ∧ below % 2 = 0 then below * unit else (below + 1) * unit

/-- The number with at most so many binary digits before its trailing zeros that is nearest to `n`;
of two the one whose last digit is even. -/
def roundToBits (bits n : Nat) : Nat := roundToUnit (Nat.pow 2 (n.log2 + 1 - bits)) n

/-- The double nearest to a number that is not too great. -/
def nearestDouble (n : Nat) : Nat := roundToBits 53 n

/-- The least magnitude that rounds to no double: half a step above the greatest one. -/
def doubleBound : Nat := Nat.pow 2 1024 - Nat.pow 2 970

/-- The greatest power of ten that is in the range of a double. -/
def greatestPower : Nat := 308

namespace Number

def ofInt (i : Int) : Number where
  negative := i < 0
  significand := i.natAbs
  exponent := 0
  whole := true

/-- The integer a number spells. A fraction, an exponent or a negative zero is no integer, whatever
its value. -/
def int? (n : Number) : Option Int :=
  if n.whole then
    if n.negative then
      if n.significand = 0 then none else some (-(n.significand : Int))
    else some n.significand
  else none

/-- How many digits at the end have to go so that the others fit a word of 64 bits. Nineteen digits
always fit, and some numbers of twenty. -/
def overlong (significand : Nat) : Nat :=
  let k := (Nat.toDigits 10 significand).length - 20
  if significand / Nat.pow 10 k < Nat.pow 2 64 then k else k + 1

/-- Whether a number is in the range of a double. Zero is, and so are leading digits before a
negative power of ten. -/
def isFinite (n : Number) : Bool :=
  if n.significand = 0 then true
  else
    let k := overlong n.significand
    let leading := n.significand / Nat.pow 10 k
    let power := n.exponent + k
    if power < 0 then true
    else if greatestPower < power then false
    else nearestDouble leading * nearestDouble (Nat.pow 10 power.toNat) < doubleBound

theorem int?_ofInt (i : Int) : (ofInt i).int? = some i := by
  simp only [ofInt, int?, if_true]
  by_cases h : i < 0
  · have : i.natAbs ≠ 0 := by omega
    simp only [h, decide_true, if_true, this, if_false, Option.some.injEq]
    omega
  · simp only [h, decide_false, Bool.false_eq_true, if_false, Option.some.injEq]
    omega

end Number

end JavaRecipes
