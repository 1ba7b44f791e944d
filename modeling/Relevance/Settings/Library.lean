import Relevance.Binary32.Basic

namespace Relevance

/-- A JSON library. A view of a document is `none` where the document has another form. -/
structure JsonLibrary where
  Document : Type
  print : Document → String
  parse? : String → Option Document
  null : Document
  /-- A string, which is also how a case without parameters is written. -/
  name : String → Document
  number : Binary32 → Document
  natural : Nat → Document
  record : List (String × Document) → Document
  /-- An object whose keys are numbers, written as strings. -/
  map : List (Nat × Document) → Document
  isNull : Document → Bool
  name? : Document → Option String
  number? : Document → Option Binary32
  natural? : Document → Option Nat
  fields? (names : List String) : Document → Option (String → Option Document)
  /-- The name that stands under a tag, and the document without the tag. -/
  tagged? (tag : String) : Document → Option (String × Document)
  entries? : Document → Option (List (Nat × Document))

namespace JsonLibrary

def optional {α : Type} (lib : JsonLibrary) (document : α → lib.Document) :
    Option α → lib.Document
  | some value => document value
  | none => lib.null

/-- A value that may be missing; that it is missing is written as null. -/
def optional? {α : Type} (lib : JsonLibrary) (read? : lib.Document → Option α)
    (d : lib.Document) : Option (Option α) :=
  if lib.isNull d then some none else (read? d).map some

/-- What the library tells of the documents it makes, numbers being finite or of 64 bits. -/
structure Lawful (lib : JsonLibrary) : Prop where
  isNull_null : lib.isNull lib.null = true
  isNull_number : ∀ x, x.isFinite = true → lib.isNull (lib.number x) = false
  name?_name : ∀ s, lib.name? (lib.name s) = some s
  number?_number : ∀ x, x.isFinite = true → lib.number? (lib.number x) = some x
  natural?_natural : ∀ n, n < 1 <<< 64 → lib.natural? (lib.natural n) = some n
  fields?_record : ∀ names fields, (fields.map Prod.fst).Nodup →
    ∃ field?, lib.fields? names (lib.record fields) = some field? ∧
      ∀ name ∈ names, field? name = fields.lookup name
  tagged?_record : ∀ tag s fields, tag ∉ fields.map Prod.fst →
    lib.tagged? tag (lib.record ((tag, lib.name s) :: fields)) = some (s, lib.record fields)
  entries?_map : ∀ entries, (∀ entry ∈ entries, entry.1 < 1 <<< 64) →
    lib.entries? (lib.map entries) = some entries

def ReadsBack (lib : JsonLibrary) (d : lib.Document) : Prop := lib.parse? (lib.print d) = some d

end JsonLibrary

end Relevance
