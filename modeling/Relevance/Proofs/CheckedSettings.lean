import Mathlib.Data.List.Basic
import Relevance.Proofs.SavedSettings
import Relevance.Settings.Tree

namespace Relevance

variable {lib : JsonLibrary}

namespace SettingsError

variable {α β : Type}

theorem bind_eq_ok {first : Except SettingsError α} {next : α → Except SettingsError β} {b : β}
    (h : (first >>= next) = .ok b) : ∃ a, first = .ok a ∧ next a = .ok b := by
  cases first with
  | error cause => exact nomatch h
  | ok a => exact ⟨a, rfl, h⟩

theorem check_eq_ok {found : Option α} {a : α} (h : check found = .ok a) : found = some a := by
  cases found with
  | none => exact nomatch h
  | some value => rw [Except.ok.inj h]

theorem refused_eq_ok {built : Except ModelError α} {a : α}
    (h : built.mapError refused = .ok a) : built = .ok a := by
  cases built with
  | error cause => exact nomatch h
  | ok value => rw [Except.ok.inj h]

theorem bind_pure_eq_error_iff (found : Except SettingsError α) (f : α → β) :
    (∃ cause, (found >>= fun a => pure (f a)) = .error cause) ↔ ∃ cause, found = .error cause := by
  cases found with
  | error cause => exact ⟨fun _ => ⟨cause, rfl⟩, fun _ => ⟨cause, rfl⟩⟩
  | ok a =>
    constructor
    · rintro ⟨cause, h⟩
      cases h
    · rintro ⟨cause, h⟩
      cases h

end SettingsError

open SettingsError

theorem JsonLibrary.read_eq_ok {α : Type} {ofDocument : lib.Document → Except SettingsError α}
    {text : String} {a : α} (h : lib.read ofDocument text = .ok a) :
    ∃ d, lib.parse? text = some d ∧ ofDocument d = .ok a := by
  obtain ⟨d, hd, h⟩ := bind_eq_ok h
  exact ⟨d, check_eq_ok hd, h⟩

namespace Normalizer

inductive Constructed : Normalizer → Prop
  | identity : Constructed .identity
  | logistic : Constructed .logistic
  | bounds {min max : Binary32} {n : Normalizer} (h : ofBounds min max = .ok n) : Constructed n
  | deviation {mean deviation : Binary32} {n : Normalizer}
      (h : ofDeviation mean deviation = .ok n) : Constructed n

theorem constructed_of_params {params : NormalizerParams} {n : Normalizer}
    (h : params.normalizer = .ok n) : n.Constructed := by
  cases params with
  | identity =>
    cases h
    exact .identity
  | minMax min max => exact .bounds h
  | standard mean deviation => exact .deviation h
  | logistic =>
    cases h
    exact .logistic

theorem constructed_iff (n : Normalizer) : n.Constructed ↔ n.Accepted := by
  constructor
  · intro h
    cases h with
    | identity => trivial
    | logistic => trivial
    | bounds h => exact (ofBounds_ok_iff.1 h).2
    | deviation h => exact (ofDeviation_ok_iff.1 h).2
  · intro h
    exact constructed_of_params (normalizer_params h)

theorem constructed_of_ofDocument {d : lib.Document} {n : Normalizer}
    (h : ofDocument lib d = .ok n) : n.Constructed := by
  obtain ⟨params, _, h⟩ := bind_eq_ok h
  exact constructed_of_params (refused_eq_ok h)

end Normalizer

namespace NormalizerTable

variable {entries : List (Nat × lib.Document)} {text : String}

/-- A text holds a table with certain entries. -/
def Holds (lib : JsonLibrary) (text : String) (entries : List (Nat × lib.Document)) : Prop :=
  ∃ d field? table, lib.parse? text = some d ∧ lib.fields? ["normalizers"] d = some field? ∧
    field? "normalizers" = some table ∧ lib.entries? table = some entries

theorem ofText_holds (h : Holds lib text entries) :
    ofText lib text = readEntries lib entries >>= fun read => pure (ofList read) := by
  obtain ⟨d, field?, table, hparse, hfields, hfield, hentries⟩ := h
  rw [ofText, JsonLibrary.read, hparse, check_some, ok_bind, ofDocument, hfields, check_some,
    ok_bind, hfield, Option.bind_some, hentries, check_some, ok_bind]

theorem holds_of_ofText {table : NormalizerTable} (h : ofText lib text = .ok table) :
    ∃ entries, Holds lib text entries := by
  obtain ⟨d, hparse, h⟩ := JsonLibrary.read_eq_ok h
  obtain ⟨field?, hfields, h⟩ := bind_eq_ok h
  obtain ⟨entries, hentries, _⟩ := bind_eq_ok h
  obtain ⟨written, hfield, hentries⟩ := Option.bind_eq_some_iff.1 (check_eq_ok hentries)
  exact ⟨entries, d, field?, written, hparse, check_eq_ok hfields, hfield, hentries⟩

theorem constructed_of_readEntries {read : List (Nat × Normalizer)}
    (h : readEntries lib entries = .ok read) : ∀ entry ∈ read, entry.2.Constructed := by
  induction entries generalizing read with
  | nil =>
    cases h
    exact nofun
  | cons entry entries ih =>
    obtain ⟨n, hn, h⟩ := bind_eq_ok h
    obtain ⟨rest, hrest, h⟩ := bind_eq_ok h
    cases h
    exact List.forall_mem_cons.2 ⟨Normalizer.constructed_of_ofDocument hn, ih hrest⟩

theorem readEntries_error_iff : (∃ cause, readEntries lib entries = .error cause) ↔
    ∃ entry ∈ entries, ∃ cause, Normalizer.ofDocument lib entry.2 = .error cause := by
  induction entries with
  | nil =>
    constructor
    · rintro ⟨cause, h⟩
      cases h
    · rintro ⟨entry, hentry, _⟩
      cases hentry
  | cons entry entries ih =>
    rw [List.exists_mem_cons_iff, ← ih, readEntries]
    cases Normalizer.ofDocument lib entry.2 with
    | error cause => exact ⟨fun _ => .inl ⟨cause, rfl⟩, fun _ => ⟨cause, rfl⟩⟩
    | ok n =>
      rw [ok_bind, bind_pure_eq_error_iff, or_iff_right]
      rintro ⟨cause, h⟩
      cases h

/-- A text of a table fails exactly if one of its entries is rejected. -/
theorem ofText_error_iff (h : Holds lib text entries) :
    (∃ cause, ofText lib text = .error cause) ↔
      ∃ entry ∈ entries, ∃ cause, Normalizer.ofDocument lib entry.2 = .error cause := by
  rw [ofText_holds h, bind_pure_eq_error_iff, readEntries_error_iff]

theorem constructed_of_ofText {table : NormalizerTable} (h : ofText lib text = .ok table) :
    ∀ entry ∈ table.entries, entry.2.Constructed := by
  obtain ⟨entries, hholds⟩ := holds_of_ofText h
  rw [ofText_holds hholds] at h
  obtain ⟨read, hread, h⟩ := bind_eq_ok h
  cases h
  rintro ⟨ordinal, n⟩ hentry
  rw [mem_entries_iff, find?_ofList] at hentry
  exact constructed_of_readEntries hread _ (mem_of_lastFor hentry)

end NormalizerTable

/-- Checked settings are read back as they are, and what is read of normalizers is checked. -/
theorem settings_survive_saving (lib : JsonLibrary) :
    (lib.Lawful →
      (∀ config : ModelConfig, config.validate = .ok () → config.maxFeatures < 1 <<< 64 →
        lib.ReadsBack (config.toDocument lib) →
          ModelConfig.ofText lib (lib.print (config.toDocument lib)) = .ok config) ∧
      (∀ n : Normalizer, n.Constructed → lib.ReadsBack (n.toDocument lib) →
        Normalizer.ofText lib (lib.print (n.toDocument lib)) = .ok n) ∧
      ∀ table : NormalizerTable,
        (∀ entry ∈ table.entries, entry.1 < 1 <<< 64 ∧ entry.2.Constructed) →
          lib.ReadsBack (table.toDocument lib) →
            NormalizerTable.ofText lib (lib.print (table.toDocument lib)) = .ok table) ∧
    (∀ n : Normalizer, n.Constructed ↔ n.Accepted) ∧
    (∀ text n, Normalizer.ofText lib text = .ok n → n.Accepted) ∧
    (∀ text table, NormalizerTable.ofText lib text = .ok table →
      ∀ entry ∈ table.entries, entry.2.Accepted) ∧
    ∀ text entries, NormalizerTable.Holds lib text entries →
      ((∃ cause, NormalizerTable.ofText lib text = .error cause) ↔
        ∃ entry ∈ entries, ∃ cause, Normalizer.ofDocument lib entry.2 = .error cause) := by
  refine ⟨?_, Normalizer.constructed_iff, ?_, ?_, ?_⟩
  · intro hlib
    refine ⟨?_, ?_, ?_⟩
    · intro config hvalid hlimit hreads
      rw [ModelConfig.ofText, JsonLibrary.read_print hreads,
        ModelConfig.ofDocument?_toDocument hlib hvalid hlimit, check_some]
    · intro n hn hreads
      rw [Normalizer.ofText, JsonLibrary.read_print hreads]
      exact Normalizer.ofDocument_toDocument hlib (n.constructed_iff.1 hn)
    · intro table hentries hreads
      rw [NormalizerTable.ofText, JsonLibrary.read_print hreads]
      apply NormalizerTable.ofDocument_toDocument hlib
      intro entry hentry
      obtain ⟨hordinal, hn⟩ := hentries entry hentry
      exact ⟨hordinal, entry.2.constructed_iff.1 hn⟩
  · intro text n h
    obtain ⟨d, _, h⟩ := JsonLibrary.read_eq_ok h
    exact (n.constructed_iff).1 (Normalizer.constructed_of_ofDocument h)
  · intro text table h entry hentry
    exact entry.2.constructed_iff.1 (NormalizerTable.constructed_of_ofText h entry hentry)
  · intro text entries h
    exact NormalizerTable.ofText_error_iff h

def flooredConfig : ModelConfig := ⟨.logistic, .flat, some ⟨0x3dcccccd⟩, 40⟩

def flooredText : String :=
  "\x7b\"objective\":\"binary:logistic\",\"encoding\":\"flat\"," ++
    "\"leaf_floor\":0.1,\"max_features\":40\x7d"

def floorlessConfig : ModelConfig := ⟨.identity, .packed, none, 10000⟩

def floorlessText : String :=
  "\x7b\"objective\":\"reg:linear\",\"encoding\":\"packed\"," ++
    "\"leaf_floor\":null,\"max_features\":10000\x7d"

def zeroToFour : Normalizer := .minMax .zero ⟨0x40800000⟩

def zeroToFourText : String := "\x7b\"type\":\"min_max\",\"min\":0.0,\"max\":4.0\x7d"

def twoNormalizers : NormalizerTable := ⟨[(7, .logistic), (12, zeroToFour)], by decide⟩

def twoNormalizersText : String :=
  "\x7b\"normalizers\":\x7b\"7\":\x7b\"type\":\"sigmoid\"\x7d," ++
    "\"12\":\x7b\"type\":\"min_max\",\"min\":0.0,\"max\":4.0\x7d\x7d\x7d"

def emptyRange : NormalizerTable := ⟨[(0, .logistic), (2, .minMax .one .one)], by decide⟩

def emptyRangeText : String :=
  "\x7b\"normalizers\":\x7b\"0\":\x7b\"type\":\"sigmoid\"\x7d," ++
    "\"2\":\x7b\"type\":\"min_max\",\"min\":1.0,\"max\":1.0\x7d\x7d\x7d"

def savedDocuments : List JsonTree :=
  let lib := JsonTree.library []
  [flooredConfig.toDocument lib, floorlessConfig.toDocument lib, zeroToFour.toDocument lib,
    twoNormalizers.toDocument lib, emptyRange.toDocument lib]

theorem settings_survive_saving_savedDocuments :
    let lib := JsonTree.library savedDocuments
    ModelConfig.ofText lib flooredText = .ok flooredConfig ∧
      ModelConfig.ofText lib floorlessText = .ok floorlessConfig ∧
      Normalizer.ofText lib zeroToFourText = .ok zeroToFour ∧
      NormalizerTable.ofText lib twoNormalizersText = .ok twoNormalizers ∧
      ∃ cause, NormalizerTable.ofText lib emptyRangeText = .error cause := by
  intro lib
  obtain ⟨hsaved, hconstructed, _, _, herror⟩ := settings_survive_saving lib
  obtain ⟨hconfig, hnormalizer, htable⟩ := hsaved JsonTree.lawful_library
  have hdistinct : savedDocuments.Pairwise fun a b => a.text ≠ b.text := by decide +kernel
  have hreads (d : JsonTree) (hd : d ∈ savedDocuments) : lib.ReadsBack d :=
    JsonTree.readsBack_library hdistinct hd
  have hfloored : lib.print (flooredConfig.toDocument lib) = flooredText := by decide +kernel
  have hfloorless : lib.print (floorlessConfig.toDocument lib) = floorlessText := by
    decide +kernel
  have hzeroToFour : lib.print (zeroToFour.toDocument lib) = zeroToFourText := by decide +kernel
  have htwo : lib.print (twoNormalizers.toDocument lib) = twoNormalizersText := by decide +kernel
  have hempty : lib.print (emptyRange.toDocument lib) = emptyRangeText := by decide +kernel
  have hbounds : zeroToFour.Constructed := (hconstructed _).2 (by decide)
  refine ⟨?_, ?_, ?_, ?_, ?_⟩
  · rw [← hfloored]
    exact hconfig _ (by decide) (by decide) (hreads _ (.head _))
  · rw [← hfloorless]
    exact hconfig _ (by decide) (by decide) (hreads _ (.tail _ (.head _)))
  · rw [← hzeroToFour]
    exact hnormalizer _ hbounds (hreads _ (.tail _ (.tail _ (.head _))))
  · rw [← htwo]
    apply htable twoNormalizers
    · rintro entry (_ | ⟨_, _ | ⟨_, ⟨⟩⟩⟩)
      · exact ⟨by decide, .logistic⟩
      · exact ⟨by decide, hbounds⟩
    · exact hreads _ (.tail _ (.tail _ (.tail _ (.head _))))
  · have hparse : lib.parse? (lib.print (emptyRange.toDocument lib)) =
        some (emptyRange.toDocument lib) :=
      hreads _ (.tail _ (.tail _ (.tail _ (.tail _ (.head _)))))
    rw [hempty] at hparse
    have hholds : NormalizerTable.Holds lib emptyRangeText
        (emptyRange.entries.map fun entry => (entry.1, entry.2.toDocument lib)) :=
      ⟨_, _, _, hparse, rfl, rfl, rfl⟩
    apply (herror _ _ hholds).2
    exact ⟨_, .tail _ (.head _), .refused (.boundsOutOfOrder .one .one), by rfl⟩

end Relevance
