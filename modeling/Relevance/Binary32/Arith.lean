import Relevance.Binary32.Basic

namespace Relevance.Binary32

open FloatFormat

/-- A NaN with its quiet bit set, which keeps sign and payload. -/
def quiet (x : Binary32) : Binary32 := ⟨x.bits ||| 0x00400000⟩

/-- The number nearest to `n / d` units, with the given sign. -/
def ofQuotient (negative : Bool) (n d : Nat) : Binary32 :=
  ofMagnitude negative (binary32.nearest n d)

def ofNat (n : Nat) : Binary32 := ofMagnitude false (binary32.ofNat n)

protected def neg (x : Binary32) : Binary32 := ofMagnitude (!x.negative) x.magnitude

protected def abs (x : Binary32) : Binary32 := ofMagnitude false x.magnitude

/-- The sum, rounded once; an operand that is NaN is the result, the left one first. -/
protected def add (x y : Binary32) : Binary32 :=
  if x.isNaN then x.quiet
  else if y.isNaN then y.quiet
  else if x.isInfinite then
    if y.isInfinite && x.negative != y.negative then indefinite else x
  else if y.isInfinite then y
  else
    let sum := x.units + y.units
    ofQuotient (if sum = 0 then x.negative && y.negative else sum < 0) sum.natAbs 1

protected def sub (x y : Binary32) : Binary32 :=
  if x.isNaN then x.quiet else if y.isNaN then y.quiet else x.add y.neg

protected def mul (x y : Binary32) : Binary32 :=
  if x.isNaN then x.quiet
  else if y.isNaN then y.quiet
  else
    let sign := x.negative != y.negative
    if x.isInfinite || y.isInfinite then
      if x.isZero || y.isZero then indefinite else ofMagnitude sign binary32.infinity
    else ofMagnitude sign (binary32.mul x.magnitude y.magnitude)

protected def div (x y : Binary32) : Binary32 :=
  if x.isNaN then x.quiet
  else if y.isNaN then y.quiet
  else
    let sign := x.negative != y.negative
    if x.isInfinite then
      if y.isInfinite then indefinite else ofMagnitude sign binary32.infinity
    else if y.isInfinite then ofMagnitude sign 0
    else if y.isZero then
      if x.isZero then indefinite else ofMagnitude sign binary32.infinity
    else ofMagnitude sign (binary32.div x.magnitude y.magnitude)

instance : Neg Binary32 := ⟨Binary32.neg⟩

instance : Add Binary32 := ⟨Binary32.add⟩

instance : Sub Binary32 := ⟨Binary32.sub⟩

instance : Mul Binary32 := ⟨Binary32.mul⟩

instance : Div Binary32 := ⟨Binary32.div⟩

/-- The larger number, the right one if neither is larger; a NaN gives way to a number. -/
protected def max (x y : Binary32) : Binary32 := if y.isNaN ∨ y < x then x else y

protected def min (x y : Binary32) : Binary32 := if y.isNaN ∨ x < y then x else y

instance : Max Binary32 := ⟨Binary32.max⟩

instance : Min Binary32 := ⟨Binary32.min⟩

/-- The logistic function `1 / (1 + exp (-x))`, evaluated in binary64 and rounded to binary32. -/
def logistic (x : Binary32) : Binary32 :=
  if x.isNaN then x.quiet
  else
    let wide := (Float32.ofBits x.bits).toFloat
    ⟨(1.0 / (1.0 + (-wide).exp)).toFloat32.toBits⟩

end Relevance.Binary32
