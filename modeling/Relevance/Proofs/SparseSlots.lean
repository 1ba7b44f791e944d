import Mathlib.Data.List.Basic
import Relevance.Proofs.LinearScores

namespace Relevance

theorem lastWrite_concat (writes : List FeatureWrite) (write : FeatureWrite) (ordinal : Nat) :
    lastWrite (writes ++ [write]) ordinal =
      if ordinal = write.ordinal then some write.score else lastWrite writes ordinal := by
  rw [lastWrite, lastWrite, List.reverse_append, List.reverse_singleton, List.singleton_append]
  by_cases h : ordinal = write.ordinal
  · rw [if_pos h, List.find?_cons_of_pos (by simpa using h.symm)]
    rfl
  · rw [if_neg h, List.find?_cons_of_neg (by simpa using Ne.symm h)]

theorem isSome_lastWrite (writes : List FeatureWrite) (ordinal : Nat) :
    (lastWrite writes ordinal).isSome = decide (∃ write ∈ writes, write.ordinal = ordinal) := by
  rw [lastWrite, Option.isSome_map, Bool.eq_iff_iff, List.find?_isSome, decide_eq_true_iff]
  simp only [List.mem_reverse, decide_eq_true_eq]

inductive SlotChange
  | set (write : FeatureWrite)
  | reset
  deriving DecidableEq

namespace SlotChange

def InRange (size : Nat) : SlotChange → Prop
  | set write => write.ordinal < size
  | reset => True

instance (size : Nat) (change : SlotChange) : Decidable (change.InRange size) :=
  match change with
  | set _ => inferInstanceAs (Decidable (_ < _))
  | reset => inferInstanceAs (Decidable True)

/-- The writes that are still to be seen after a change. -/
def remember (writes : List FeatureWrite) : SlotChange → List FeatureWrite
  | set write => writes ++ [write]
  | reset => []

def writesSinceReset (changes : List SlotChange) : List FeatureWrite :=
  changes.foldl remember []

theorem set_mem_of_mem_foldl {changes : List SlotChange} {writes : List FeatureWrite}
    {write : FeatureWrite} (h : write ∈ changes.foldl remember writes) :
    write ∈ writes ∨ set write ∈ changes := by
  induction changes generalizing writes with
  | nil => exact .inl h
  | cons change changes ih =>
    rcases ih h with hmem | hmem
    · cases change with
      | set last =>
        rcases List.mem_append.1 hmem with hmem | hmem
        · exact .inl hmem
        · rw [List.mem_singleton.1 hmem]
          exact .inr List.mem_cons_self
      | reset => exact absurd hmem List.not_mem_nil
    · exact .inr (List.mem_cons_of_mem _ hmem)

end SlotChange

namespace FeatureVector

open SlotChange (writesSinceReset)

section Changes

variable {kind : VectorKind} {size : Nat} {writes : List FeatureWrite}

def change? (v : FeatureVector kind) : SlotChange → Option (FeatureVector kind)
  | .set write => v.set? write
  | .reset => some v.reset

def changeAll? (v : FeatureVector kind) (changes : List SlotChange) : Option (FeatureVector kind) :=
  changes.foldlM change? v

/-- Each slot holds the score of the last of the writes to it, or has not been set. -/
structure HoldsLast (size : Nat) (writes : List FeatureWrite) (v : FeatureVector kind) : Prop where
  size_eq : v.size = size
  slots : ∀ ordinal < size, v.get? ordinal = some ((lastWrite writes ordinal).getD kind.unset)

theorem blank?_holdsLast (storage : Storage) (h : size < slotBound) :
    ∃ fresh, blank? storage size = some fresh ∧ fresh.HoldsLast size [] := by
  have hblank := blank?_of_lt storage h
  obtain ⟨hsize, hunset⟩ := blank?_unset hblank
  exact ⟨_, hblank, hsize, hunset⟩

theorem HoldsLast.change {v : FeatureVector kind} (h : v.HoldsLast size writes)
    {change : SlotChange} (hrange : change.InRange size) :
    ∃ after, v.change? change = some after ∧ after.HoldsLast size (change.remember writes) := by
  cases change with
  | set write =>
    have hlt : write.ordinal < v.size := by
      rw [h.size_eq]
      exact hrange
    obtain ⟨after, hafter, hsize⟩ := v.set?_total write hlt
    apply Exists.intro after
    apply And.intro hafter
    apply HoldsLast.mk (hsize.trans h.size_eq)
    intro ordinal hordinal
    rw [get?_set? hafter, SlotChange.remember, lastWrite_concat]
    by_cases heq : ordinal = write.ordinal
    · rw [if_pos heq, if_pos heq, Option.getD_some]
    · rw [if_neg heq, if_neg heq, h.slots ordinal hordinal]
  | reset =>
    apply Exists.intro v.reset
    apply And.intro rfl
    apply HoldsLast.mk (v.size_reset.trans h.size_eq)
    intro ordinal hordinal
    rw [← h.size_eq] at hordinal
    exact v.get?_reset hordinal

theorem HoldsLast.changeAll {v : FeatureVector kind} (h : v.HoldsLast size writes)
    {changes : List SlotChange} (hrange : ∀ change ∈ changes, change.InRange size) :
    ∃ after, v.changeAll? changes = some after ∧
      after.HoldsLast size (changes.foldl SlotChange.remember writes) := by
  induction changes generalizing v writes with
  | nil => exact ⟨v, rfl, h⟩
  | cons change changes ih =>
    obtain ⟨hchange, hchanges⟩ := List.forall_mem_cons.1 hrange
    obtain ⟨next, hnext, hholds⟩ := h.change hchange
    obtain ⟨after, hafter, hholds'⟩ := ih hholds hchanges
    apply Exists.intro after
    rw [changeAll?, List.foldlM_cons, hnext]
    exact ⟨hafter, hholds'⟩

end Changes

variable {size : Nat} {writes : List FeatureWrite} {v : FeatureVector (.plain .sparse)}

theorem HoldsLast.isSet? (h : v.HoldsLast size writes) {ordinal : Nat} (hlt : ordinal < size) :
    v.isSet? ordinal = some ((lastWrite writes ordinal).any (!·.isNaN)) := by
  rw [FeatureVector.isSet?, h.slots ordinal hlt]
  cases lastWrite writes ordinal with
  | none => rfl
  | some score => rfl

theorem HoldsLast.zipIdx_scores (h : v.HoldsLast size writes) :
    v.scores.toList.zipIdx =
      (List.range size).map fun ordinal => ((lastWrite writes ordinal).getD .nan, ordinal) := by
  apply List.ext_getElem?
  intro ordinal
  rw [List.getElem?_zipIdx, Nat.zero_add, List.getElem?_map, Array.getElem?_toList]
  by_cases hlt : ordinal < size
  · have hslot : v.scores[ordinal]? = some ((lastWrite writes ordinal).getD .nan) :=
      h.slots ordinal hlt
    rw [hslot, List.getElem?_range hlt, Option.map_some, Option.map_some]
  · have hsize : v.scores.size ≤ ordinal :=
      Nat.le_trans (Nat.le_of_eq h.size_eq) (Nat.le_of_not_lt hlt)
    rw [Array.getElem?_eq_none hsize, List.getElem?_eq_none (by simpa using hlt)]
    rfl

theorem HoldsLast.setSlots (h : v.HoldsLast size writes) :
    v.setSlots = (List.range size).filterMap fun ordinal =>
      ((lastWrite writes ordinal).filter (!·.isNaN)).map (ordinal, ·) := by
  rw [FeatureVector.setSlots, h.zipIdx_scores, ← List.filterMap_eq_filter, List.map_filterMap,
    List.filterMap_map]
  apply List.filterMap_congr
  intro ordinal _
  rw [Function.comp_apply, Option.guard]
  cases lastWrite writes ordinal with
  | none => rfl
  | some score =>
    rw [Option.getD_some, Option.filter_some]
    cases score.isNaN with
    | true => rfl
    | false => rfl

structure TellsWrites (writes : List FeatureWrite) (v : FeatureVector (.plain .sparse)) : Prop where
  isSet? : ∀ ordinal < v.size,
    v.isSet? ordinal = some (decide (∃ write ∈ writes, write.ordinal = ordinal))
  setSlots : v.setSlots = (List.range v.size).filterMap fun ordinal =>
    (lastWrite writes ordinal).map (ordinal, ·)

/-- The writes show in the slots exactly if none of the scores that are left is a NaN. -/
theorem HoldsLast.tellsWrites_iff (h : v.HoldsLast size writes)
    (hrange : ∀ write ∈ writes, write.ordinal < size) :
    v.TellsWrites writes ↔
      ∀ ordinal score, lastWrite writes ordinal = some score → score.isNaN = false := by
  constructor
  · intro htells ordinal score hscore
    have hwritten : decide (∃ write ∈ writes, write.ordinal = ordinal) = true := by
      rw [← isSome_lastWrite, hscore, Option.isSome_some]
    obtain ⟨write, hwrite, rfl⟩ := of_decide_eq_true hwritten
    have hlt : write.ordinal < size := hrange write hwrite
    have hset := htells.isSet? write.ordinal (h.size_eq.symm ▸ hlt)
    rw [h.isSet? hlt, hwritten, hscore, Option.any_some, Option.some_inj, Bool.not_eq_true'] at hset
    exact hset
  · intro hnumbers
    apply TellsWrites.mk
    · intro ordinal hlt
      rw [h.size_eq] at hlt
      rw [h.isSet? hlt, ← isSome_lastWrite]
      cases hscore : lastWrite writes ordinal with
      | none => rfl
      | some score => rw [Option.any_some, hnumbers ordinal score hscore]; rfl
    · rw [h.setSlots, h.size_eq]
      apply List.filterMap_congr
      intro ordinal _
      cases hscore : lastWrite writes ordinal with
      | none => rfl
      | some score => rw [Option.filter_some, hnumbers ordinal score hscore]; rfl

theorem setSlots_ascending (v : FeatureVector (.plain .sparse)) :
    (v.setSlots.map (·.1)).Pairwise (· < ·) := by
  have hslots : v.scores.toList.zipIdx.Pairwise (·.2 < ·.2) := by
    rw [← List.pairwise_map (f := Prod.snd), List.zipIdx_map_snd]
    exact List.pairwise_lt_range'
  rw [setSlots, List.map_map, List.pairwise_map]
  exact hslots.filter _

/-- A slot counts as set exactly if the score written to it last is a number. -/
theorem sparse_tells_numbers (size : Nat) (changes : List SlotChange)
    (hrange : ∀ change ∈ changes, change.InRange size) :
    (slotBound ≤ size → blank? .sparse size = none) ∧
      (size < slotBound →
        ∃ fresh v, blank? .sparse size = some fresh ∧ fresh.changeAll? changes = some v ∧
          v.size = size ∧
          (∀ ordinal < size, v.isSet? ordinal =
            some ((lastWrite (writesSinceReset changes) ordinal).any (!·.isNaN))) ∧
          v.setSlots = ((List.range size).filterMap fun ordinal =>
            ((lastWrite (writesSinceReset changes) ordinal).filter (!·.isNaN)).map (ordinal, ·)) ∧
          (v.setSlots.map (·.1)).Pairwise (· < ·) ∧
          (v.TellsWrites (writesSinceReset changes) ↔
            ∀ ordinal score, lastWrite (writesSinceReset changes) ordinal = some score →
              score.isNaN = false)) := by
  constructor
  · exact blank?_of_le .sparse
  · intro hsize
    obtain ⟨fresh, hfresh, hunset⟩ := blank?_holdsLast .sparse hsize
    obtain ⟨v, hv, hlast⟩ := hunset.changeAll hrange
    have hwrites : ∀ write ∈ writesSinceReset changes, write.ordinal < size := by
      intro write hwrite
      rcases SlotChange.set_mem_of_mem_foldl hwrite with hmem | hmem
      · exact absurd hmem List.not_mem_nil
      · exact hrange (.set write) hmem
    exact ⟨fresh, v, hfresh, hv, hlast.size_eq, fun _ hlt => hlast.isSet? hlt, hlast.setSlots,
      v.setSlots_ascending, hlast.tellsWrites_iff hwrites⟩

def fiveChanges : List SlotChange :=
  [.set ⟨2, .infinity⟩, .reset, .set ⟨1, .zero⟩, .set ⟨0, .nan⟩, .set ⟨0, .one⟩]

theorem sparse_tells_numbers_fiveChanges :
    ∃ fresh v, blank? .sparse 3 = some fresh ∧ fresh.changeAll? fiveChanges = some v ∧
      v.isSet? 2 = some false ∧ v.setSlots = [(0, .one), (1, .zero)] := by
  have hrange : ∀ change ∈ fiveChanges, change.InRange 3 := by decide
  obtain ⟨fresh, v, hfresh, hv, _, hset, hslots, _⟩ :=
    (sparse_tells_numbers 3 fiveChanges hrange).2 (by decide)
  apply Exists.intro fresh
  apply Exists.intro v
  rw [hset 2 (by decide), hslots]
  exact ⟨hfresh, hv, by decide, by decide⟩

/-- Slot 0 has been set, though to a NaN, which is what it holds as long as it is not set. -/
theorem written_nan_not_told :
    ∃ fresh v : FeatureVector (.plain .sparse), blank? .sparse 1 = some fresh ∧
      fresh.changeAll? [.set ⟨0, .nan⟩] = some v ∧
      (∃ write ∈ writesSinceReset [.set ⟨0, .nan⟩], write.ordinal = 0) ∧
      v.isSet? 0 = some false ∧ v.setSlots = [] := by
  apply Exists.intro (.plain #[.nan])
  apply Exists.intro (.plain #[.nan])
  exact ⟨rfl, rfl, by decide, by decide, by decide⟩

end FeatureVector

end Relevance
