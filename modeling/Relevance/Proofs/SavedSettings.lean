import Relevance.Proofs.LastNormalizer
import Relevance.Proofs.LoadRefusals
import Relevance.Proofs.NormalizedOrder
import Relevance.Settings.Write

namespace Relevance

variable {lib : JsonLibrary}

namespace SettingsError

theorem check_some {α : Type} (value : α) : check (some value) = .ok value := rfl

theorem ok_bind {α β : Type} (value : α) (next : α → Except SettingsError β) :
    (Except.ok value >>= next) = next value := rfl

end SettingsError

open SettingsError

namespace JsonLibrary

theorem read_print {α : Type} {d : lib.Document} (h : lib.ReadsBack d)
    (ofDocument : lib.Document → Except SettingsError α) :
    lib.read ofDocument (lib.print d) = ofDocument d := by
  have hparse : lib.parse? (lib.print d) = some d := h
  rw [read, hparse]
  rfl

namespace Lawful

theorem optional?_optional (hlib : lib.Lawful) {x : Option Binary32}
    (h : ∀ y, x = some y → y.isFinite = true) :
    lib.optional? lib.number? (lib.optional lib.number x) = some x := by
  cases x with
  | none => rw [optional, optional?, hlib.isNull_null, if_pos rfl]
  | some y =>
    have hfinite := h y rfl
    rw [optional, optional?, hlib.isNull_number y hfinite, hlib.number?_number y hfinite]
    rfl

/-- Two finite numbers are read back from the fields of a record. -/
theorem fields?_numbers (hlib : lib.Lawful) {a b : String} (hne : a ≠ b) {x y : Binary32}
    (hx : x.isFinite = true) (hy : y.isFinite = true) :
    ∃ field?, lib.fields? [a, b] (lib.record [(a, lib.number x), (b, lib.number y)]) =
        some field? ∧
      (field? a).bind lib.number? = some x ∧ (field? b).bind lib.number? = some y := by
  obtain ⟨field?, hfields, hfield⟩ := hlib.fields?_record [a, b]
    [(a, lib.number x), (b, lib.number y)] (by simp [hne])
  refine ⟨field?, hfields, ?_, ?_⟩
  · rw [hfield a (by simp), List.lookup_cons_self, Option.bind_some, hlib.number?_number x hx]
  · rw [hfield b (by simp), List.lookup_cons, beq_false_of_ne hne.symm]
    simp only [List.lookup_cons_self, Option.bind_some, hlib.number?_number y hy]

end Lawful

end JsonLibrary

theorem Objective.ofDocument?_toDocument (hlib : lib.Lawful) (objective : Objective) :
    ofDocument? lib (objective.toDocument lib) = some objective := by
  rw [ofDocument?, toDocument, hlib.name?_name, Option.bind_some]
  cases objective <;> decide

theorem Encoding.ofDocument?_toDocument (hlib : lib.Lawful) (encoding : Encoding) :
    ofDocument? lib (encoding.toDocument lib) = some encoding := by
  rw [ofDocument?, toDocument, hlib.name?_name, Option.bind_some]
  cases encoding <;> decide

theorem ModelConfig.ofDocument?_toDocument (hlib : lib.Lawful) {config : ModelConfig}
    (hvalid : config.validate = .ok ()) (hlimit : config.maxFeatures < 1 <<< 64) :
    ofDocument? lib (config.toDocument lib) = some config := by
  have hfloor := hlib.optional?_optional (validate_ok hvalid).1
  have hfeatures := hlib.natural?_natural config.maxFeatures hlimit
  obtain ⟨field?, hfields, hfield⟩ := hlib.fields?_record fieldNames [
    ("objective", config.objective.toDocument lib),
    ("encoding", config.encoding.toDocument lib),
    ("leaf_floor", lib.optional lib.number config.leafFloor),
    ("max_features", lib.natural config.maxFeatures)] (by simp)
  have hobjective' : field? "objective" = some (config.objective.toDocument lib) :=
    hfield _ (by decide)
  have hencoding' : field? "encoding" = some (config.encoding.toDocument lib) :=
    hfield _ (by decide)
  have hfloor' : field? "leaf_floor" = some (lib.optional lib.number config.leafFloor) :=
    hfield _ (by decide)
  have hfeatures' : field? "max_features" = some (lib.natural config.maxFeatures) :=
    hfield _ (by decide)
  rw [ofDocument?, toDocument, hfields]
  simp only [Option.bind_eq_bind, Option.bind_some, hobjective', hencoding', hfloor', hfeatures',
    fieldOr, Objective.ofDocument?_toDocument hlib, Encoding.ofDocument?_toDocument hlib, hfloor,
    hfeatures]
  rfl

namespace NormalizerParams

theorem ofDocument?_record (hlib : lib.Lawful) (type : String)
    {fields : List (String × lib.Document)} (h : "type" ∉ fields.map Prod.fst) :
    ofDocument? lib (lib.record (("type", lib.name type) :: fields)) =
      ofFields? lib type (lib.record fields) := by
  rw [ofDocument?, hlib.tagged?_record "type" type fields h]
  rfl

end NormalizerParams

namespace Normalizer

def params : Normalizer → NormalizerParams
  | identity => .identity
  | minMax min max => .minMax min max
  | standard mean deviation => .standard mean deviation
  | logistic => .logistic

theorem normalizer_params {n : Normalizer} (h : n.Accepted) : n.params.normalizer = .ok n := by
  cases n with
  | identity => rfl
  | logistic => rfl
  | minMax min max => exact ofBounds_ok_iff.2 ⟨rfl, h⟩
  | standard mean deviation => exact ofDeviation_ok_iff.2 ⟨rfl, h⟩

theorem ofDocument?_toDocument (hlib : lib.Lawful) {n : Normalizer} (h : n.Accepted) :
    NormalizerParams.ofDocument? lib (n.toDocument lib) = some n.params := by
  obtain ⟨none?, hnone, _⟩ := hlib.fields?_record [] [] List.nodup_nil
  cases n with
  | identity =>
    rw [toDocument, NormalizerParams.ofDocument?_record hlib _ (by simp),
      NormalizerParams.ofFields?, hnone]
    rfl
  | logistic =>
    rw [toDocument, NormalizerParams.ofDocument?_record hlib _ (by simp),
      NormalizerParams.ofFields?, hnone]
    rfl
  | minMax min max =>
    obtain ⟨hmin, hmax, _⟩ := h
    obtain ⟨field?, hfields, hfirst, hsecond⟩ :=
      hlib.fields?_numbers (show "min" ≠ "max" by decide) hmin hmax
    rw [toDocument, NormalizerParams.ofDocument?_record hlib _ (by simp),
      NormalizerParams.ofFields?, hfields]
    simp only [Option.bind_eq_bind, Option.bind_some, hfirst, hsecond]
    rfl
  | standard mean deviation =>
    obtain ⟨hmean, hdeviation, _⟩ := h
    obtain ⟨field?, hfields, hfirst, hsecond⟩ :=
      hlib.fields?_numbers (show "mean" ≠ "std_dev" by decide) hmean hdeviation
    rw [toDocument, NormalizerParams.ofDocument?_record hlib _ (by simp),
      NormalizerParams.ofFields?, hfields]
    simp only [Option.bind_eq_bind, Option.bind_some, hfirst, hsecond]
    rfl

theorem ofDocument_toDocument (hlib : lib.Lawful) {n : Normalizer} (h : n.Accepted) :
    ofDocument lib (n.toDocument lib) = .ok n := by
  rw [ofDocument, ofDocument?_toDocument hlib h, check_some, ok_bind, normalizer_params h]
  rfl

end Normalizer

namespace NormalizerTable

theorem readEntries_toDocument (hlib : lib.Lawful) {entries : List (Nat × Normalizer)}
    (h : ∀ entry ∈ entries, entry.2.Accepted) :
    readEntries lib (entries.map fun (ordinal, n) => (ordinal, n.toDocument lib)) =
      .ok entries := by
  induction entries with
  | nil => rfl
  | cons entry entries ih =>
    obtain ⟨hentry, hentries⟩ := List.forall_mem_cons.1 h
    rw [List.map_cons, readEntries, Normalizer.ofDocument_toDocument hlib hentry, ok_bind,
      ih hentries]
    rfl

theorem ofDocument_toDocument (hlib : lib.Lawful) {table : NormalizerTable}
    (h : ∀ entry ∈ table.entries, entry.1 < 1 <<< 64 ∧ entry.2.Accepted) :
    ofDocument lib (table.toDocument lib) = .ok table := by
  have hread := readEntries_toDocument hlib fun entry hentry => (h entry hentry).2
  have hentries := hlib.entries?_map
    (table.entries.map fun (ordinal, n) => (ordinal, n.toDocument lib)) (by
      intro written hwritten
      obtain ⟨entry, hentry, rfl⟩ := List.mem_map.1 hwritten
      exact (h entry hentry).1)
  obtain ⟨field?, hfields, hfield⟩ := hlib.fields?_record ["normalizers"] [("normalizers",
    lib.map (table.entries.map fun (ordinal, n) => (ordinal, n.toDocument lib)))] (by simp)
  rw [ofDocument, toDocument, hfields, check_some, ok_bind, hfield _ List.mem_cons_self,
    List.lookup_cons_self, Option.bind_some, hentries, check_some, ok_bind, hread, ok_bind,
    ofList_entries]
  rfl

end NormalizerTable

end Relevance
