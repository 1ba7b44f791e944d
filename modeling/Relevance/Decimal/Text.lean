import Relevance.Binary32.Basic
import Relevance.Decimal.Shortest

namespace Relevance

namespace Decimal

def positional (d : Decimal) (whole : String) : String :=
  let digits := Nat.toDigits 10 d.digits
  let point : Int := digits.length + d.exponent
  if 0 ≤ d.exponent then
    String.ofList (digits ++ List.replicate d.exponent.toNat '0') ++ whole
  else if 0 < point then
    String.ofList (digits.take point.toNat ++ '.' :: digits.drop point.toNat)
  else
    String.ofList ('0' :: '.' :: List.replicate (-point).toNat '0' ++ digits)

def scientific (d : Decimal) : String :=
  let digits := Nat.toDigits 10 d.digits
  let exponent : Int := digits.length + d.exponent - 1
  match digits with
  | lead :: next :: rest => String.ofList (lead :: '.' :: next :: rest) ++ "e" ++ toString exponent
  | _ => String.ofList digits ++ "e" ++ toString exponent

end Decimal

/-- What follows a whole number, and between which magnitudes notation is positional. -/
structure NumberStyle where
  whole : String
  positionalFrom : Nat
  positionalBelow : Nat

namespace NumberStyle

/-- The style of messages: always positional, whole numbers without a point. -/
def message : NumberStyle := ⟨"", 0, FloatFormat.binary32.infinity⟩

/-- The style of tree listings: positional from `1e-4` up to `1e16`, always with a point. -/
def listing : NumberStyle := ⟨".0", 0x38d1b717, 0x5a0e1bca⟩

end NumberStyle

namespace Binary32

def render (style : NumberStyle) (x : Binary32) : String :=
  if x.isNaN then "NaN"
  else
    let body :=
      if x.isInfinite then "inf"
      else if x.isZero then "0" ++ style.whole
      else
        let decimal := FloatFormat.binary32.shortest x.magnitude
        if style.positionalFrom ≤ x.magnitude && x.magnitude < style.positionalBelow then
          decimal.positional style.whole
        else decimal.scientific
    if x.negative then "-" ++ body else body

instance : ToString Binary32 := ⟨render .message⟩

end Binary32

end Relevance
