import Relevance.FloatFormat

namespace Relevance

structure Decimal where
  digits : Nat
  exponent : Int
  deriving DecidableEq

namespace FloatFormat

/-- The multiple of `10 ^ k` nearest to a magnitude that reads back as it, the larger in a tie. -/
def gridPoint? (f : FloatFormat) (magnitude : Nat) (k : Int) : Option Nat :=
  let grid := Nat.pow 10 k.toNat <<< (f.unitExponent + 1)
  let scale := Nat.pow 10 (-k).toNat
  let low := (f.units magnitude + f.units (magnitude - 1)) * scale
  let mid := 2 * f.units magnitude * scale
  let high := (f.units magnitude + f.units (magnitude + 1)) * scale
  let readsBack (c : Nat) : Bool :=
    (low < c * grid && c * grid < high)
      || (magnitude % 2 == 0 && (c * grid == low || c * grid == high))
  let c := mid / grid
  match readsBack c, readsBack (c + 1) with
  | true, true => some (if mid - c * grid < (c + 1) * grid - mid then c else c + 1)
  | true, false => some c
  | false, true => some (c + 1)
  | false, false => none

/-- The decimal with the fewest digits that reads back as a positive finite magnitude. -/
def shortest (f : FloatFormat) (magnitude : Nat) : Decimal :=
  let top := (Nat.toDigits 10 (f.units magnitude >>> f.unitExponent)).length
  let exact : Decimal := ⟨f.units magnitude * Nat.pow 5 f.unitExponent, -f.unitExponent⟩
  let hit? (i : Nat) : Option Decimal :=
    let k : Int := top - i
    (f.gridPoint? magnitude k).map (⟨·, k⟩)
  ((List.range (top + f.unitExponent + 1)).findSome? hit?).getD exact

end FloatFormat

end Relevance
