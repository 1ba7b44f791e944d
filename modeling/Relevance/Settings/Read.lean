import Relevance.Model.Config
import Relevance.Normalizer.Table
import Relevance.Settings.Library

namespace Relevance

/-- Why a text holds no settings: it does not have their form, or their values are refused. -/
inductive SettingsError
  | malformed
  | refused (cause : ModelError)
  deriving DecidableEq

namespace SettingsError

def check {α : Type} : Option α → Except SettingsError α
  | some value => .ok value
  | none => .error malformed

end SettingsError

open SettingsError

variable (lib : JsonLibrary)

def JsonLibrary.read {α : Type} (ofDocument : lib.Document → Except SettingsError α)
    (text : String) : Except SettingsError α := do
  ofDocument (← check (lib.parse? text))

namespace Objective

def ofDocument? (d : lib.Document) : Option Objective := (lib.name? d).bind find?

def ofText (text : String) : Except SettingsError Objective :=
  lib.read (fun d => check (ofDocument? lib d)) text

end Objective

namespace Encoding

def name : Encoding → String
  | naive => "naive"
  | flat => "flat"
  | packed => "packed"

def find? (name : String) : Option Encoding := [naive, flat, packed].find? (·.name = name)

def ofDocument? (d : lib.Document) : Option Encoding := (lib.name? d).bind find?

end Encoding

namespace ModelConfig

def fieldNames : List String := ["objective", "encoding", "leaf_floor", "max_features"]

def fieldOr {α : Type} (fallback : α) (read? : lib.Document → Option α) :
    Option lib.Document → Option α
  | some d => read? d
  | none => some fallback

/-- Reads a configuration, whose ranges are not checked. -/
def ofDocument? (d : lib.Document) : Option ModelConfig := do
  let field? ← lib.fields? fieldNames d
  let fallback : ModelConfig := {}
  return {
    objective := ← fieldOr lib fallback.objective (Objective.ofDocument? lib) (field? "objective")
    encoding := ← fieldOr lib fallback.encoding (Encoding.ofDocument? lib) (field? "encoding")
    leafFloor := ← fieldOr lib fallback.leafFloor (lib.optional? lib.number?) (field? "leaf_floor")
    maxFeatures := ← fieldOr lib fallback.maxFeatures lib.natural? (field? "max_features") }

def ofText (text : String) : Except SettingsError ModelConfig :=
  lib.read (fun d => check (ofDocument? lib d)) text

end ModelConfig

/-- The parameters of a normalizer as they are read, before they are checked. -/
inductive NormalizerParams
  | identity
  | minMax (min max : Binary32)
  | standard (mean deviation : Binary32)
  | logistic
  deriving DecidableEq

namespace NormalizerParams

/-- The parameters of a type are the fields beside its name. -/
def ofFields? (type : String) (d : lib.Document) : Option NormalizerParams :=
  match type with
  | "identity" => (lib.fields? [] d).map fun _ => identity
  | "min_max" => do
    let field? ← lib.fields? ["min", "max"] d
    return minMax (← (field? "min").bind lib.number?) (← (field? "max").bind lib.number?)
  | "standard" => do
    let field? ← lib.fields? ["mean", "std_dev"] d
    return standard (← (field? "mean").bind lib.number?) (← (field? "std_dev").bind lib.number?)
  | "sigmoid" => (lib.fields? [] d).map fun _ => logistic
  | _ => none

def ofDocument? (d : lib.Document) : Option NormalizerParams := do
  let (type, d) ← lib.tagged? "type" d
  ofFields? lib type d

def normalizer : NormalizerParams → Except ModelError Normalizer
  | identity => .ok .identity
  | minMax min max => Normalizer.ofBounds min max
  | standard mean deviation => Normalizer.ofDeviation mean deviation
  | logistic => .ok .logistic

end NormalizerParams

namespace Normalizer

def ofDocument (d : lib.Document) : Except SettingsError Normalizer := do
  let params ← check (NormalizerParams.ofDocument? lib d)
  params.normalizer.mapError .refused

def ofText : String → Except SettingsError Normalizer := lib.read (ofDocument lib)

end Normalizer

namespace NormalizerTable

/-- Reads entries one after the other, up to the first that is refused. -/
def readEntries :
    List (Nat × lib.Document) → Except SettingsError (List (Nat × Normalizer))
  | [] => .ok []
  | (ordinal, d) :: rest => do
    let n ← Normalizer.ofDocument lib d
    return (ordinal, n) :: (← readEntries rest)

/-- Of entries for one ordinal the last one counts. -/
def ofDocument (d : lib.Document) : Except SettingsError NormalizerTable := do
  let field? ← check (lib.fields? ["normalizers"] d)
  let entries ← check ((field? "normalizers").bind lib.entries?)
  return ofList (← readEntries lib entries)

def ofText : String → Except SettingsError NormalizerTable := lib.read (ofDocument lib)

end NormalizerTable

end Relevance
