import Relevance.Decimal.Text
import Relevance.Settings.Library

namespace Relevance

inductive JsonTree
  | null
  | name (value : String)
  | number (value : Binary32)
  | natural (value : Nat)
  | record (fields : List (String × JsonTree))
  | map (entries : List (Nat × JsonTree))

namespace JsonTree

def quoted (s : String) : String := "\"" ++ s ++ "\""

mutual

def text : JsonTree → String
  | null => "null"
  | name value => quoted value
  | number value => value.render .listing
  | natural value => toString value
  | record fields => "\x7b" ++ ",".intercalate (fieldTexts fields) ++ "\x7d"
  | map entries => "\x7b" ++ ",".intercalate (entryTexts entries) ++ "\x7d"

def fieldTexts : List (String × JsonTree) → List String
  | [] => []
  | (key, value) :: rest => (quoted key ++ ":" ++ value.text) :: fieldTexts rest

def entryTexts : List (Nat × JsonTree) → List String
  | [] => []
  | (key, value) :: rest => (quoted (toString key) ++ ":" ++ value.text) :: entryTexts rest

end

/-- A library that knows certain documents by their texts. -/
def library (known : List JsonTree) : JsonLibrary where
  Document := JsonTree
  print := text
  parse? s := known.find? fun d => d.text = s
  null := null
  name := name
  number x := if x.isFinite then number x else null
  natural := natural
  record := record
  map := map
  isNull
    | null => true
    | _ => false
  name?
    | name s => some s
    | _ => none
  number?
    | number x => some x
    | _ => none
  natural?
    | natural n => some n
    | _ => none
  fields? _
    | record fields => if (fields.map Prod.fst).Nodup then some (fields.lookup ·) else none
    | _ => none
  tagged? tag
    | record ((key, name s) :: fields) => if key = tag then some (s, record fields) else none
    | _ => none
  entries?
    | map entries => some entries
    | _ => none

variable {known : List JsonTree}

theorem lawful_library : (library known).Lawful where
  isNull_null := rfl
  isNull_number x h := by
    simp only [library, h, ↓reduceIte]
  name?_name _ := rfl
  number?_number x h := by
    simp only [library, h, ↓reduceIte]
  natural?_natural _ _ := rfl
  fields?_record _ fields h := ⟨_, if_pos h, fun _ _ => rfl⟩
  tagged?_record _ _ _ _ := if_pos rfl
  entries?_map _ _ := rfl

/-- Documents with texts of their own are read back. -/
theorem readsBack_library (hdistinct : known.Pairwise fun a b => a.text ≠ b.text) {d : JsonTree}
    (hd : d ∈ known) : (library known).ReadsBack d := by
  change known.find? (fun other => other.text = d.text) = some d
  obtain ⟨before, behind, rfl⟩ := List.append_of_mem hd
  have hbefore : before.find? (fun other => other.text = d.text) = none := by
    rw [List.find?_eq_none]
    intro other hother
    have hne := (List.pairwise_append.1 hdistinct).2.2 other hother d List.mem_cons_self
    simpa using hne
  have hfound : (d :: behind).find? (fun other => other.text = d.text) = some d :=
    List.find?_cons_of_pos (decide_eq_true rfl)
  rw [List.find?_append, hbefore, hfound]
  rfl

end JsonTree

end Relevance
