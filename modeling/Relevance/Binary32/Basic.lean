import Relevance.FloatFormat

namespace Relevance

open FloatFormat

/-- A binary32 number by its bit pattern. -/
structure Binary32 where
  bits : UInt32
  deriving DecidableEq, Inhabited

namespace Binary32

def zero : Binary32 := ⟨0⟩

def infinity : Binary32 := ⟨0x7f800000⟩

/-- The NaN that marks a feature nobody has set. -/
def nan : Binary32 := ⟨0x7fc00000⟩

/-- The NaN of an operation without a result, such as infinity minus infinity. -/
def indefinite : Binary32 := ⟨0xffc00000⟩

def negative (x : Binary32) : Bool := 0x80000000 ≤ x.bits.toNat

def magnitude (x : Binary32) : Nat := x.bits.toNat % 0x80000000

def ofMagnitude (negative : Bool) (magnitude : Nat) : Binary32 :=
  ⟨UInt32.ofNat (if negative then 0x80000000 + magnitude else magnitude)⟩

def isNaN (x : Binary32) : Bool := binary32.infinity < x.magnitude

def isInfinite (x : Binary32) : Bool := x.magnitude = binary32.infinity

def isFinite (x : Binary32) : Bool := x.magnitude < binary32.infinity

def isZero (x : Binary32) : Bool := x.magnitude = 0

def units (x : Binary32) : Int :=
  if x.negative then -(binary32.units x.magnitude : Int) else binary32.units x.magnitude

/-- The order key: numbers other than NaN are ordered as their keys, the two zeros sharing one. -/
def key (x : Binary32) : Int := if x.negative then -(x.magnitude : Int) else x.magnitude

def lt (x y : Binary32) : Bool := !x.isNaN && !y.isNaN && x.key < y.key

def le (x y : Binary32) : Bool := !x.isNaN && !y.isNaN && x.key ≤ y.key

/-- Numeric equality: the two zeros are equal, and a NaN differs from itself. -/
def numEq (x y : Binary32) : Bool := !x.isNaN && !y.isNaN && x.key = y.key

instance : LT Binary32 := ⟨fun x y => x.lt y = true⟩

instance : LE Binary32 := ⟨fun x y => x.le y = true⟩

instance (x y : Binary32) : Decidable (x < y) := inferInstanceAs (Decidable (x.lt y = true))

instance (x y : Binary32) : Decidable (x ≤ y) := inferInstanceAs (Decidable (x.le y = true))

/-- Whether two rows are as long as each other and have the same bit patterns. -/
def sameBits (xs ys : Array Binary32) : Bool :=
  xs.size == ys.size && (xs.zip ys).all fun (x, y) => x.bits == y.bits

theorem eq_of_bits_eq {x y : Binary32} (h : x.bits = y.bits) : x = y := by
  cases x
  cases y
  cases h
  rfl

theorem sameBits_iff {xs ys : Array Binary32} : sameBits xs ys = true ↔ xs = ys := by
  rw [sameBits, Bool.and_eq_true, beq_iff_eq, Array.all_eq_true]
  constructor
  · rintro ⟨hsize, hbits⟩
    apply Array.ext hsize
    intro i hx hy
    have hzip : i < (xs.zip ys).size := by
      rw [Array.size_zip]
      exact Nat.lt_min.2 ⟨hx, hy⟩
    have hi := hbits i hzip
    rw [Array.getElem_zip, beq_iff_eq] at hi
    exact eq_of_bits_eq hi
  · rintro rfl
    constructor
    · rfl
    · intro i hi
      rw [Array.getElem_zip, beq_iff_eq]

end Binary32

end Relevance
