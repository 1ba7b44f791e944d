namespace Relevance

/-- A binary interchange format, given by the bits of its fraction and of its exponent field. -/
structure FloatFormat where
  fractionBits : Nat
  exponentBits : Nat

namespace FloatFormat

def binary32 : FloatFormat := ⟨23, 8⟩

/-- The magnitude of infinity; every larger magnitude encodes a NaN. -/
def infinity (f : FloatFormat) : Nat := (1 <<< f.exponentBits - 1) <<< f.fractionBits

/-- The smallest positive value of the format is `2 ^ -unitExponent`. -/
def unitExponent (f : FloatFormat) : Nat := 1 <<< (f.exponentBits - 1) - 2 + f.fractionBits

def units (f : FloatFormat) (magnitude : Nat) : Nat :=
  let field := magnitude >>> f.fractionBits
  let fraction := magnitude % 1 <<< f.fractionBits
  if field = 0 then fraction else (1 <<< f.fractionBits + fraction) <<< (field - 1)

/-- The quotient rounded to an integer, a half going to the even neighbour. -/
def roundQuotient (n d : Nat) : Nat :=
  let q := n / d
  let twice := 2 * (n % d)
  if twice < d then q else if d < twice then q + 1 else q + q % 2

/-- The magnitude nearest to `n / d` units, a tie going to the even one. -/
def nearest (f : FloatFormat) (n d : Nat) : Nat :=
  let shift := (n / d).log2 - f.fractionBits
  min f.infinity (shift <<< f.fractionBits + roundQuotient n (d <<< shift))

def ofNat (f : FloatFormat) (n : Nat) : Nat := f.nearest (n <<< f.unitExponent) 1

def mul (f : FloatFormat) (a b : Nat) : Nat :=
  f.nearest (f.units a * f.units b) (1 <<< f.unitExponent)

def div (f : FloatFormat) (a b : Nat) : Nat :=
  f.nearest (f.units a <<< f.unitExponent) (f.units b)

end FloatFormat

end Relevance
