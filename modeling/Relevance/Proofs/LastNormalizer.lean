import Relevance.Normalizer.Table

namespace Relevance.NormalizerTable

def listedFor (entries : List (Nat × Normalizer)) (ordinal : Nat) : List (Nat × Normalizer) :=
  entries.filter (·.1 = ordinal)

def lastFor (entries : List (Nat × Normalizer)) (ordinal : Nat) : Option Normalizer :=
  (listedFor entries ordinal).getLast?.map (·.2)

theorem lastFor_cons (entry : Nat × Normalizer) (rest : List (Nat × Normalizer)) (ordinal : Nat) :
    lastFor (entry :: rest) ordinal =
      if entry.1 = ordinal then some ((lastFor rest ordinal).getD entry.2)
      else lastFor rest ordinal := by
  by_cases h : entry.1 = ordinal
  · rw [if_pos h, lastFor, listedFor, List.filter_cons_of_pos (by simpa using h),
      List.getLast?_cons, Option.map_some, lastFor, listedFor]
    cases (rest.filter (·.1 = ordinal)).getLast? with
    | none => rfl
    | some last => rfl
  · rw [if_neg h, lastFor, listedFor, List.filter_cons_of_neg (by simpa using h)]
    rfl

theorem lookup_cons_eq (entry : Nat × Normalizer) (rest : List (Nat × Normalizer)) (ordinal : Nat) :
    (entry :: rest).lookup ordinal =
      if ordinal = entry.1 then some entry.2 else rest.lookup ordinal := by
  rw [List.lookup_cons]
  by_cases h : ordinal = entry.1
  · rw [if_pos h, beq_iff_eq.2 h]
  · rw [if_neg h, beq_eq_false_iff_ne.2 h]

theorem lookup_insertEntry (ordinal other : Nat) (normalizer : Normalizer)
    (entries : List (Nat × Normalizer)) :
    (insertEntry ordinal normalizer entries).lookup other =
      if other = ordinal then some normalizer else entries.lookup other := by
  induction entries with
  | nil => exact lookup_cons_eq (ordinal, normalizer) [] other
  | cons entry rest ih =>
    rw [insertEntry]
    by_cases hlt : ordinal < entry.1
    · rw [if_pos hlt]
      exact lookup_cons_eq (ordinal, normalizer) (entry :: rest) other
    · rw [if_neg hlt]
      by_cases heq : ordinal = entry.1
      · rw [if_pos heq, lookup_cons_eq, lookup_cons_eq, ← heq]
        by_cases h : other = ordinal
        · rw [if_pos h, if_pos h]
        · rw [if_neg h, if_neg h, if_neg h]
      · rw [if_neg heq, lookup_cons_eq, lookup_cons_eq, ih]
        by_cases h : other = ordinal
        · rw [if_pos h, if_neg (h ▸ heq), if_pos h]
        · rw [if_neg h, if_neg h]

theorem find?_insert (table : NormalizerTable) (ordinal other : Nat) (normalizer : Normalizer) :
    (table.insert ordinal normalizer).find? other =
      if other = ordinal then some normalizer else table.find? other :=
  lookup_insertEntry ordinal other normalizer table.entries

theorem find?_foldl_insert (entries : List (Nat × Normalizer)) (table : NormalizerTable)
    (ordinal : Nat) :
    (entries.foldl (fun table entry => table.insert entry.1 entry.2) table).find? ordinal =
      (lastFor entries ordinal).or (table.find? ordinal) := by
  induction entries generalizing table with
  | nil => rfl
  | cons entry rest ih =>
    rw [List.foldl_cons, ih, find?_insert, lastFor_cons]
    by_cases h : ordinal = entry.1
    · rw [if_pos h, if_pos h.symm]
      cases lastFor rest ordinal with
      | none => rfl
      | some last => rfl
    · rw [if_neg h, if_neg (Ne.symm h)]

/-- A table made of a list has the normalizer listed last for each ordinal. -/
theorem find?_ofList (entries : List (Nat × Normalizer)) (ordinal : Nat) :
    (ofList entries).find? ordinal = lastFor entries ordinal := by
  rw [ofList, find?_foldl_insert]
  exact Option.or_none

theorem mem_entries_iff (table : NormalizerTable) (ordinal : Nat) (normalizer : Normalizer) :
    (ordinal, normalizer) ∈ table.entries ↔ table.find? ordinal = some normalizer := by
  rw [find?, List.lookup_eq_some_iff]
  constructor
  · intro h
    obtain ⟨before, after, hentries⟩ := List.append_of_mem h
    refine ⟨before, after, hentries, ?_⟩
    intro entry hentry
    have hascending := table.ascending
    rw [hentries] at hascending
    have hlt := (List.pairwise_append.1 hascending).2.2 entry hentry _ List.mem_cons_self
    simpa using Nat.ne_of_gt hlt
  · rintro ⟨before, after, hentries, _⟩
    rw [hentries]
    exact List.mem_append_right _ List.mem_cons_self

/-- Tables are equal if they have the same normalizer for every ordinal. -/
theorem ext_find? {s t : NormalizerTable} (h : ∀ ordinal, s.find? ordinal = t.find? ordinal) :
    s = t := by
  have hnodup (table : NormalizerTable) : table.entries.Nodup := by
    apply table.ascending.imp
    intro a b hlt heq
    exact Nat.ne_of_lt hlt (congrArg Prod.fst heq)
  have hperm : s.entries.Perm t.entries := by
    rw [List.perm_ext_iff_of_nodup (hnodup s) (hnodup t)]
    intro entry
    rw [mem_entries_iff, mem_entries_iff, h]
  have hentries : s.entries = t.entries := by
    apply List.Perm.eq_of_pairwise _ s.ascending t.ascending hperm
    intro a b _ _ hab hba
    exact absurd hba (Nat.lt_asymm hab)
  obtain ⟨entries, hs⟩ := s
  obtain ⟨others, ht⟩ := t
  cases hentries
  rfl

/-- Only the order of the entries for one ordinal counts. -/
theorem ofList_congr {entries others : List (Nat × Normalizer)}
    (h : ∀ ordinal, listedFor entries ordinal = listedFor others ordinal) :
    ofList entries = ofList others := by
  apply ext_find?
  intro ordinal
  rw [find?_ofList, find?_ofList, lastFor, lastFor, h]

theorem mem_of_lastFor {entries : List (Nat × Normalizer)} {ordinal : Nat} {normalizer : Normalizer}
    (h : lastFor entries ordinal = some normalizer) : (ordinal, normalizer) ∈ entries := by
  obtain ⟨⟨listed, last⟩, hlast, rfl⟩ := Option.map_eq_some_iff.1 h
  obtain ⟨hmem, hlisted⟩ := List.mem_filter.1 (List.mem_of_getLast? hlast)
  obtain rfl : listed = ordinal := of_decide_eq_true hlisted
  exact hmem

theorem exists_lastFor {entries : List (Nat × Normalizer)} {entry : Nat × Normalizer}
    (h : entry ∈ entries) : ∃ normalizer, lastFor entries entry.1 = some normalizer := by
  have hmem : entry ∈ listedFor entries entry.1 := List.mem_filter.2 ⟨h, decide_eq_true rfl⟩
  obtain ⟨last, hlast⟩ := Option.ne_none_iff_exists'.1
    (mt List.getLast?_eq_none_iff.1 (List.ne_nil_of_mem hmem))
  exact ⟨last.2, by rw [lastFor, hlast, Option.map_some]⟩

theorem ofList_entries (table : NormalizerTable) : ofList table.entries = table := by
  apply ext_find?
  intro ordinal
  rw [find?_ofList]
  apply Option.ext
  intro normalizer
  rw [← mem_entries_iff]
  constructor
  · exact mem_of_lastFor
  · intro hmem
    obtain ⟨last, hlast⟩ := exists_lastFor hmem
    have hfind := (mem_entries_iff table ordinal last).1 (mem_of_lastFor hlast)
    rw [(mem_entries_iff table ordinal normalizer).1 hmem] at hfind
    rw [hlast, hfind]

theorem forall_ofList_iff {entries : List (Nat × Normalizer)} {P : Nat → Prop} :
    (∀ entry ∈ (ofList entries).entries, P entry.1) ↔ ∀ entry ∈ entries, P entry.1 := by
  constructor
  · intro h entry hentry
    obtain ⟨normalizer, hlast⟩ := exists_lastFor hentry
    rw [← find?_ofList, ← mem_entries_iff] at hlast
    exact h (entry.1, normalizer) hlast
  · rintro h ⟨ordinal, normalizer⟩ hentry
    rw [mem_entries_iff, find?_ofList] at hentry
    exact h (ordinal, normalizer) (mem_of_lastFor hentry)

end Relevance.NormalizerTable
