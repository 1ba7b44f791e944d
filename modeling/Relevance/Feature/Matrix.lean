import Relevance.Feature.Slots

namespace Relevance

/-- Whether memory has room for the entries of a matrix and for its longer side. -/
def MatrixFits (rows cols : Nat) : Prop := rows * cols < slotBound ∧ max rows cols < 1 <<< 63

instance (rows cols : Nat) : Decidable (MatrixFits rows cols) :=
  inferInstanceAs (Decidable (_ ∧ _))

/-- The feature scores of several candidates, one row each, row after row. -/
structure FeatureMatrix where
  rows : Nat
  cols : Nat
  entries : Vector Binary32 (rows * cols)
  fitsMemory : MatrixFits rows cols

namespace FeatureMatrix

theorem place_lt {rows cols row col : Nat} (hr : row < rows) (hc : col < cols) :
    row * cols + col < rows * cols :=
  calc
    row * cols + col < row * cols + cols := Nat.add_lt_add_left hc _
    _ = (row + 1) * cols := (Nat.succ_mul row cols).symm
    _ ≤ rows * cols := Nat.mul_le_mul_right cols hr

instance : Inhabited FeatureMatrix := ⟨⟨0, 0, #v[], by decide⟩⟩

def zero (rows cols : Nat) : FeatureMatrix :=
  if h : MatrixFits rows cols then ⟨rows, cols, .replicate _ .zero, h⟩ else default

def zero? (rows cols : Nat) : Option FeatureMatrix :=
  if MatrixFits rows cols then some (zero rows cols) else none

def get? (m : FeatureMatrix) (row col : Nat) : Option Binary32 :=
  if h : row < m.rows ∧ col < m.cols then
    some (m.entries.get ⟨row * m.cols + col, place_lt h.1 h.2⟩)
  else none

def set? (m : FeatureMatrix) (row col : Nat) (score : Binary32) : Option FeatureMatrix :=
  if h : row < m.rows ∧ col < m.cols then
    some { m with entries := m.entries.set (row * m.cols + col) score (place_lt h.1 h.2) }
  else none

def row? (m : FeatureMatrix) (row : Nat) : Option (Array Binary32) :=
  if row < m.rows then some (m.entries.toArray.extract (row * m.cols) ((row + 1) * m.cols))
  else none

def reset (m : FeatureMatrix) : FeatureMatrix := { m with entries := .replicate _ .zero }

/-- Whether there are enough rows and just as many columns. -/
def fits (m : FeatureMatrix) (rows cols : Nat) : Bool := rows ≤ m.rows && m.cols == cols

def recycle? (reuse : Option FeatureMatrix) (rows cols : Nat) : Option FeatureMatrix :=
  match reuse with
  | some m => if m.fits rows cols then some m.reset else zero? rows cols
  | none => zero? rows cols

def numEq (a b : FeatureMatrix) : Bool :=
  a.rows == b.rows && a.cols == b.cols
    && (a.entries.toArray.zip b.entries.toArray).all fun (x, y) => x.numEq y

end FeatureMatrix

end Relevance
