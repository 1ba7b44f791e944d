import Relevance.Normalizer.Basic

namespace Relevance

/-- Normalizers by feature ordinal, in ascending order of the ordinals. -/
structure NormalizerTable where
  entries : List (Nat × Normalizer)
  ascending : entries.Pairwise (·.1 < ·.1)
  deriving DecidableEq

namespace NormalizerTable

def empty : NormalizerTable := ⟨[], .nil⟩

instance : Inhabited NormalizerTable := ⟨empty⟩

def insertEntry (ordinal : Nat) (normalizer : Normalizer) :
    List (Nat × Normalizer) → List (Nat × Normalizer)
  | [] => [(ordinal, normalizer)]
  | entry :: rest =>
    if ordinal < entry.1 then (ordinal, normalizer) :: entry :: rest
    else if ordinal = entry.1 then (ordinal, normalizer) :: rest
    else entry :: insertEntry ordinal normalizer rest

theorem mem_insertEntry {ordinal : Nat} {normalizer : Normalizer}
    {entries : List (Nat × Normalizer)} {e : Nat × Normalizer}
    (h : e ∈ insertEntry ordinal normalizer entries) : e = (ordinal, normalizer) ∨ e ∈ entries := by
  induction entries with
  | nil => simpa [insertEntry] using h
  | cons entry rest ih =>
    simp only [insertEntry] at h
    split at h
    · simpa using h
    · split at h
      · rcases List.mem_cons.1 h with h | h
        · exact .inl h
        · exact .inr (List.mem_cons_of_mem _ h)
      · rcases List.mem_cons.1 h with h | h
        · exact .inr (h ▸ List.mem_cons_self)
        · exact (ih h).imp_right (List.mem_cons_of_mem _)

theorem insertEntry_ascending (ordinal : Nat) (normalizer : Normalizer)
    {entries : List (Nat × Normalizer)} (h : entries.Pairwise (·.1 < ·.1)) :
    (insertEntry ordinal normalizer entries).Pairwise (·.1 < ·.1) := by
  induction entries with
  | nil => exact List.pairwise_singleton _ _
  | cons entry rest ih =>
    obtain ⟨hall, hrest⟩ := List.pairwise_cons.1 h
    simp only [insertEntry]
    split
    · rename_i hlt
      refine List.pairwise_cons.2 ⟨fun e he => ?_, h⟩
      rcases List.mem_cons.1 he with rfl | he
      · exact hlt
      · exact Nat.lt_trans hlt (hall e he)
    · split
      · rename_i heq
        exact List.pairwise_cons.2 ⟨fun e he => heq ▸ hall e he, hrest⟩
      · refine List.pairwise_cons.2 ⟨fun e he => ?_, ih hrest⟩
        rcases mem_insertEntry he with rfl | he
        · simp only
          omega
        · exact hall e he

/-- Attaches a normalizer to an ordinal; the latest one counts. -/
def insert (table : NormalizerTable) (ordinal : Nat) (normalizer : Normalizer) : NormalizerTable :=
  ⟨insertEntry ordinal normalizer table.entries, insertEntry_ascending _ _ table.ascending⟩

def ofList (entries : List (Nat × Normalizer)) : NormalizerTable :=
  entries.foldl (fun table entry => table.insert entry.1 entry.2) empty

def find? (table : NormalizerTable) (ordinal : Nat) : Option Normalizer :=
  table.entries.lookup ordinal

def size (table : NormalizerTable) : Nat := table.entries.length

def ordinals (table : NormalizerTable) : List Nat := table.entries.map (·.1)

def last? (table : NormalizerTable) : Option Nat := table.ordinals.getLast?

def fingerprint (table : NormalizerTable) : Fingerprint :=
  .size table.size :: table.entries.flatMap fun entry =>
    .size entry.1 :: entry.2.fingerprint

end NormalizerTable

end Relevance
