import Relevance.Proofs.LoopRounds
import Relevance.Tree.Rebuild

namespace Relevance.Tree

/-- What rebuilding has on its two stacks: the steps still to do and the subtrees built so far. -/
structure Rebuilding where
  steps : List RebuildStep
  built : List Tree

namespace Rebuilding

/-- A round of rebuilding does the step on top; a join needs two subtrees. -/
inductive Advances : Rebuilding → Rebuilding → Prop
  | leaf (output : Binary32) (steps : List RebuildStep) (built : List Tree) :
      Advances ⟨.visit (.leaf output) :: steps, built⟩ ⟨steps, .leaf output :: built⟩
  | split (feature : Nat) (threshold : Binary32) (left right : Tree) (steps : List RebuildStep)
      (built : List Tree) :
      Advances ⟨.visit (.split feature threshold left right) :: steps, built⟩
        ⟨.visit left :: .visit right :: .join feature threshold :: steps, built⟩
  | join (feature : Nat) (threshold : Binary32) (left right : Tree) (steps : List RebuildStep)
      (built : List Tree) :
      Advances ⟨.join feature threshold :: steps, right :: left :: built⟩
        ⟨steps, .split feature threshold left right :: built⟩

variable {s next next' last : Rebuilding}

theorem Advances.unique (h : Advances s next) (h' : Advances s next') : next = next' := by
  cases h with
  | leaf output steps built =>
    cases h'
    rfl
  | split feature threshold left right steps built =>
    cases h'
    rfl
  | join feature threshold left right steps built =>
    cases h'
    rfl

theorem Advances.rebuild_eq (h : Advances s next) :
    rebuild s.built s.steps = rebuild next.built next.steps := by
  cases h with
  | leaf output steps built => rw [rebuild]
  | split feature threshold left right steps built => rw [rebuild]
  | join feature threshold left right steps built => rw [rebuild]

theorem rebuild_eq_of_rounds {n : Nat} (h : Rounds Advances n s last) :
    rebuild s.built s.steps = rebuild last.built last.steps := by
  induction h with
  | none s => rfl
  | more hround _ ih => exact hround.rebuild_eq.trans ih

theorem rebuild_eq_some_iff {steps : List RebuildStep} {built result : List Tree} :
    rebuild built steps = some result ↔ ∃ n, Rounds Advances n ⟨steps, built⟩ ⟨[], result⟩ := by
  constructor
  · intro h
    fun_induction rebuild built steps with
    | case1 built =>
      cases h
      exact ⟨0, .none _⟩
    | case2 built output steps ih =>
      obtain ⟨n, hrest⟩ := ih h
      exact ⟨n + 1, .more (.leaf output steps built) hrest⟩
    | case3 built feature threshold left right steps ih =>
      obtain ⟨n, hrest⟩ := ih h
      exact ⟨n + 1, .more (.split feature threshold left right steps built) hrest⟩
    | case4 feature threshold steps right left built ih =>
      obtain ⟨n, hrest⟩ := ih h
      exact ⟨n + 1, .more (.join feature threshold left right steps built) hrest⟩
    | case5 => exact nomatch h
  · rintro ⟨n, h⟩
    rw [rebuild_eq_of_rounds h, rebuild]

end Rebuilding

open Rebuilding

def rebuildRounds (t : Tree) : Nat := t.size + t.features.length

/-- A visit puts the tree itself on top of what has been built, whatever is on the stacks. -/
theorem rounds_visit (t : Tree) (steps : List RebuildStep) (built : List Tree) :
    Rounds Advances t.rebuildRounds ⟨.visit t :: steps, built⟩ ⟨steps, t :: built⟩ := by
  induction t generalizing steps built with
  | leaf output => exact .more (.leaf output steps built) (.none _)
  | split feature threshold left right ihl ihr =>
    have hjoin : Rounds Advances 1 ⟨.join feature threshold :: steps, right :: left :: built⟩
        ⟨steps, .split feature threshold left right :: built⟩ :=
      .more (.join feature threshold left right steps built) (.none _)
    have hleft := ihl (.visit right :: .join feature threshold :: steps) built
    have hright := ihr (.join feature threshold :: steps) (left :: built)
    have hcount : (split feature threshold left right).rebuildRounds =
        left.rebuildRounds + (right.rebuildRounds + 1) + 1 := by
      simp only [rebuildRounds, size, features, List.length_cons, List.length_append]
      omega
    rw [hcount]
    exact .more (.split feature threshold left right steps built)
      (hleft.trans (hright.trans hjoin))

theorem rebuild_endsAfter (t : Tree) :
    EndsAfter Advances t.rebuildRounds ⟨[.visit t], []⟩ ⟨[], [t]⟩ :=
  (t.rounds_visit [] []).endsAfter Advances.unique fun _ h => nomatch h

/-- Rebuilding a tree from a visit of it ends with the tree itself, and no join fails. -/
theorem copy_is_same_tree (t : Tree) :
    t.copy? = some t ∧ rebuild [] [.visit t] = some [t] ∧
      EndsAfter Advances t.rebuildRounds ⟨[.visit t], []⟩ ⟨[], [t]⟩ ∧
      ∀ n s, Rounds Advances n ⟨[.visit t], []⟩ s →
        (s.steps = [] → s.built = [t]) ∧
        ∀ feature threshold steps, s.steps = .join feature threshold :: steps →
          2 ≤ s.built.length := by
  have hends := t.rebuild_endsAfter
  have hrebuild : rebuild [] [.visit t] = some [t] := rebuild_eq_some_iff.2 ⟨_, hends.run⟩
  have hcopy : t.copy? = some t := by
    rw [copy?, hrebuild]
    rfl
  refine ⟨hcopy, hrebuild, hends, ?_⟩
  rintro n ⟨steps, built⟩ hreached
  rcases hends.goes_on hreached with hlast | ⟨next, hnext⟩
  · cases hlast
    exact ⟨fun _ => rfl, fun _ _ _ hjoin => nomatch hjoin⟩
  · constructor
    · rintro rfl
      exact nomatch hnext
    · rintro feature threshold rest rfl
      cases hnext with
      | join _ _ left right _ built => exact Nat.le_add_left 2 built.length

/-- A tree that goes on to the right only, with a NaN for a threshold and for a leaf. -/
def lopsided : Tree :=
  .split 0 .zero (.leaf ⟨0x7fc00001⟩) (.split 1 .nan (.leaf ⟨0x80000000⟩) (.leaf .infinity))

theorem copy_is_same_tree_lopsided :
    let joining : Rebuilding :=
      { steps := [.join 1 .nan, .join 0 .zero]
        built := [.leaf .infinity, .leaf ⟨0x80000000⟩, .leaf ⟨0x7fc00001⟩] }
    lopsided.copy? = some lopsided ∧ Rounds Advances 5 ⟨[.visit lopsided], []⟩ joining ∧
      2 ≤ joining.built.length ∧ Rounds Advances 7 ⟨[.visit lopsided], []⟩ ⟨[], [lopsided]⟩ := by
  intro joining
  have hreached : Rounds Advances 5 ⟨[.visit lopsided], []⟩ joining :=
    .more (.split ..) (.more (.leaf ..) (.more (.split ..) (.more (.leaf ..) (.more (.leaf ..)
      (.none _)))))
  obtain ⟨hcopy, _, hends, hjoin⟩ := copy_is_same_tree lopsided
  exact ⟨hcopy, hreached, (hjoin 5 joining hreached).2 1 .nan [.join 0 .zero] rfl, hends.run⟩

end Relevance.Tree
