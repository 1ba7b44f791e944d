import Relevance.Model.Config

namespace Relevance

namespace Build

variable {α β : Type}

/-- The outcome of a construction that follows the events given, with all events up to its end. -/
def runFrom (build : Build α) (events : List Event) : Except ModelError α × List Event :=
  StateT.run (ExceptT.run build) events

theorem runFrom_bind (build : Build α) (next : α → Build β) (events : List Event) :
    runFrom (build >>= next) events =
      match runFrom build events with
      | (.ok a, after) => runFrom (next a) after
      | (.error cause, after) => (.error cause, after) := by
  simp only [runFrom, ExceptT.run_bind, StateT.run_bind]
  generalize StateT.run (ExceptT.run build) events = outcome
  obtain ⟨cause | a, after⟩ := outcome <;> rfl

theorem runFrom_lift (result : Except ModelError α) (events : List Event) :
    runFrom (liftM result) events = (result, events) := by
  cases result <;> rfl

theorem bind_ok {build : Build α} {next : α → Build β} {b : β} {events after : List Event}
    (h : runFrom (build >>= next) events = (.ok b, after)) :
    ∃ a middle, runFrom build events = (.ok a, middle) ∧
      runFrom (next a) middle = (.ok b, after) := by
  rw [runFrom_bind] at h
  generalize runFrom build events = outcome at h ⊢
  obtain ⟨cause | a, middle⟩ := outcome
  · exact nomatch h
  · exact ⟨a, middle, rfl, h⟩

theorem lift_ok {result : Except ModelError α} {a : α} {events after : List Event}
    (h : runFrom (liftM result) events = (.ok a, after)) : result = .ok a := by
  rw [runFrom_lift] at h
  exact congrArg Prod.fst h

variable {Done : α → Prop} {Refused : ModelError → Prop}

/-- What holds of how a construction ends, whatever was reported before. -/
def Ends (build : Build α) (Done : α → Prop) (Refused : ModelError → Prop) : Prop :=
  ∀ events, match (runFrom build events).1 with
    | .ok a => Done a
    | .error cause => Refused cause

theorem Ends.bind {Then : β → Prop} {build : Build α} {next : α → Build β}
    (h : build.Ends Done Refused) (hnext : ∀ a, Done a → (next a).Ends Then Refused) :
    Ends (build >>= next) Then Refused := by
  intro events
  have hfirst := h events
  rw [runFrom_bind]
  generalize runFrom build events = outcome at hfirst ⊢
  obtain ⟨cause | a, middle⟩ := outcome
  · exact hfirst
  · exact hnext a hfirst middle

theorem Ends.lift {result : Except ModelError α} (hok : ∀ a, result = .ok a → Done a)
    (herror : ∀ cause, result = .error cause → Refused cause) :
    Ends (liftM result) Done Refused := by
  intro events
  rw [runFrom_lift]
  cases result with
  | ok a => exact hok a rfl
  | error cause => exact herror cause rfl

theorem Ends.pure {a : α} (h : Done a) : Ends (pure a) Done Refused := fun _ => h

theorem Ends.report (event : Event) : Ends (report event) (fun _ => True) Refused :=
  fun _ => trivial

theorem Ends.done {build : Build α} (h : build.Ends Done Refused) {a : α}
    (ha : build.outcome.1 = .ok a) : Done a := by
  have hend := h []
  rw [show (runFrom build []).1 = .ok a from ha] at hend
  exact hend

theorem Ends.refused {build : Build α} (h : build.Ends Done Refused) {cause : ModelError}
    (hcause : build.outcome.1 = .error cause) : Refused cause := by
  have hend := h []
  rw [show (runFrom build []).1 = .error cause from hcause] at hend
  exact hend

end Build

inductive TreeModel.Converted : TreeModel → Prop
  | naive (e : Ensemble) : Converted (.naive e)
  | flat {e : Ensemble} {f : FlatEnsemble} (h : FlatEnsemble.ofEnsemble e = .ok f) :
      Converted (.flat f)
  | packed {e : Ensemble} {p : PackedEnsemble} (h : PackedEnsemble.ofEnsemble e = .ok p) :
      Converted (.packed p)

inductive TreeModel.ConvertedFrom (e : Ensemble) : TreeModel → Prop
  | naive : ConvertedFrom e (.naive e)
  | flat {f : FlatEnsemble} (h : FlatEnsemble.ofEnsemble e = .ok f) : ConvertedFrom e (.flat f)
  | packed {p : PackedEnsemble} (h : PackedEnsemble.ofEnsemble e = .ok p) :
      ConvertedFrom e (.packed p)

theorem TreeModel.ConvertedFrom.converted {e : Ensemble} {model : TreeModel}
    (h : model.ConvertedFrom e) : model.Converted := by
  cases h with
  | naive => exact .naive e
  | flat h => exact .flat h
  | packed h => exact .packed h

theorem TreeModel.Converted.convertedFrom {model : TreeModel} (h : model.Converted) :
    ∃ e, model.ConvertedFrom e := by
  cases h with
  | naive e => exact ⟨e, .naive⟩
  | flat h => exact ⟨_, .flat h⟩
  | packed h => exact ⟨_, .packed h⟩

theorem Build.convertedFrom_of_encode {encoding : Encoding} {e : Ensemble} {model : TreeModel}
    {events after : List Event} (h : runFrom (encode encoding e) events = (.ok model, after)) :
    model.ConvertedFrom e := by
  cases encoding with
  | naive =>
    cases h
    exact .naive
  | flat =>
    obtain ⟨f, middle, hflatten, hmodel⟩ := bind_ok h
    cases hmodel
    obtain ⟨f', _, hlift, hreport⟩ := bind_ok hflatten
    cases hreport
    exact .flat (lift_ok hlift)
  | packed =>
    obtain ⟨p, middle, hpack, hmodel⟩ := bind_ok h
    cases hmodel
    obtain ⟨p', _, hlift, hreport⟩ := bind_ok hpack
    cases hreport
    exact .packed (lift_ok hlift)

theorem TreeModel.converted_of_load {trees : List Tree} {weights : List Binary32}
    {featureCount : Nat} {config : ModelConfig} {model : TreeModel}
    (h : (load trees weights featureCount config).outcome.1 = .ok model) : model.Converted := by
  obtain ⟨after, hrun⟩ : ∃ after,
      Build.runFrom (load trees weights featureCount config) [] = (.ok model, after) :=
    ⟨_, Prod.ext h rfl⟩
  obtain ⟨_, _, _, hrun⟩ := Build.bind_ok hrun
  obtain ⟨_, _, _, hrun⟩ := Build.bind_ok hrun
  obtain ⟨_, _, _, hrun⟩ := Build.bind_ok hrun
  obtain ⟨e, _, _, hrun⟩ := Build.bind_ok hrun
  obtain ⟨encoded, _, hencode, hrun⟩ := Build.bind_ok hrun
  cases hrun
  exact (Build.convertedFrom_of_encode hencode).converted

end Relevance
