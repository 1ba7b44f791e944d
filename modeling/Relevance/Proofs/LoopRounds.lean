namespace Relevance

/-- A number of rounds of a loop, one after the other. -/
inductive Rounds {α : Type} (round : α → α → Prop) : Nat → α → α → Prop
  | none (s : α) : Rounds round 0 s s
  | more {n : Nat} {s next last : α} (hround : round s next) (hrest : Rounds round n next last) :
      Rounds round (n + 1) s last

/-- A loop has one run, of that many rounds to that end. -/
def EndsAfter {α : Type} (round : α → α → Prop) (n : Nat) (s last : α) : Prop :=
  (∀ next, ¬round last next) ∧
    ∀ done mid, Rounds round done s mid → ∃ left, done + left = n ∧ Rounds round left mid last

namespace Rounds

variable {α : Type} {round : α → α → Prop} {m n : Nat} {s mid last : α}

theorem trans (h : Rounds round m s mid) (h' : Rounds round n mid last) :
    Rounds round (m + n) s last := by
  induction h with
  | none s => rwa [Nat.zero_add]
  | more hround _ ih =>
    rw [Nat.succ_add]
    exact .more hround (ih h')

/-- Where each round has at most one outcome, a run to the end is the only run. -/
theorem endsAfter (h : Rounds round n s last)
    (hunique : ∀ {s next next'}, round s next → round s next' → next = next')
    (hlast : ∀ next, ¬round last next) : EndsAfter round n s last := by
  refine ⟨hlast, fun done mid hdone => ?_⟩
  induction hdone generalizing n with
  | none s => exact ⟨n, Nat.zero_add n, h⟩
  | more hround _ ih =>
    cases h with
    | none => exact absurd hround (hlast _)
    | more hround' hrest =>
      obtain rfl := hunique hround hround'
      obtain ⟨left, hleft, hmid⟩ := ih hrest
      exact ⟨left, by omega, hmid⟩

end Rounds

namespace EndsAfter

variable {α : Type} {round : α → α → Prop} {done n : Nat} {s mid last : α}

theorem run (h : EndsAfter round n s last) : Rounds round n s last := by
  obtain ⟨left, hleft, hrun⟩ := h.2 0 s (.none s)
  rwa [← hleft, Nat.zero_add]

theorem goes_on (h : EndsAfter round n s last) (hmid : Rounds round done s mid) :
    mid = last ∨ ∃ next, round mid next := by
  obtain ⟨left, _, hrun⟩ := h.2 done mid hmid
  cases hrun with
  | none => exact .inl rfl
  | more hround _ => exact .inr ⟨_, hround⟩

end EndsAfter

end Relevance
