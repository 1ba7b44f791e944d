import Relevance.Binary32.Basic

namespace Relevance

inductive HashItem
  | byte (value : UInt8)
  | short (value : Int16)
  | word (value : UInt32)
  | long (value : Int32)
  | size (value : Nat)
  deriving DecidableEq

/-- What a value feeds to a hasher, in order; hashes are equal when the feeds are. -/
abbrev Fingerprint := List HashItem

def HashItem.number (x : Binary32) : HashItem := .word x.bits

namespace Fingerprint

def sequence {α : Type} (item : α → HashItem) (xs : List α) : Fingerprint :=
  .size xs.length :: xs.map item

end Fingerprint

end Relevance
