import Relevance.Proofs.LeafFloors
import Relevance.Proofs.LoadRefusals
import Relevance.Proofs.PackedTiling
import Relevance.Proofs.SlotAddresses

namespace Relevance

open Binary32

namespace Build

variable {α β : Type}

/-- What holds of a construction's outcome and of the events that it adds. -/
def Reports (build : Build α) (log : Except ModelError α → List Event → Prop) : Prop :=
  ∀ events, ∃ reported, (runFrom build events).2 = events ++ reported ∧
    log (runFrom build events).1 reported

variable {first : Except ModelError α → List Event → Prop}
  {log : Except ModelError β → List Event → Prop}

theorem Reports.bind {build : Build α} {next : α → Build β} (h : build.Reports first)
    (hok : ∀ a reported, first (.ok a) reported →
      (next a).Reports fun result later => log result (reported ++ later))
    (herror : ∀ cause reported, first (.error cause) reported → log (.error cause) reported) :
    Reports (build >>= next) log := by
  intro events
  obtain ⟨reported, hevents, hfirst⟩ := h events
  rw [runFrom_bind]
  generalize runFrom build events = outcome at hevents hfirst ⊢
  obtain ⟨cause | a, middle⟩ := outcome
  · exact ⟨reported, hevents, herror cause reported hfirst⟩
  · obtain ⟨later, hlater, hlog⟩ := hok a reported hfirst middle
    refine ⟨reported ++ later, ?_, hlog⟩
    rw [hlater, show middle = events ++ reported from hevents, List.append_assoc]

theorem Reports.lift (result : Except ModelError α) :
    Reports (liftM result) fun outcome reported => outcome = result ∧ reported = [] := by
  intro events
  rw [runFrom_lift]
  exact ⟨[], (List.append_nil events).symm, rfl, rfl⟩

theorem Reports.ends {build : Build α} {Done : α → Prop} {Refused : ModelError → Prop}
    (h : build.Reports first) (hends : build.Ends Done Refused) :
    build.Reports fun outcome reported => first outcome reported ∧ match outcome with
      | .ok a => Done a
      | .error cause => Refused cause := by
  intro events
  obtain ⟨reported, hevents, hfirst⟩ := h events
  exact ⟨reported, hevents, hfirst, hends events⟩

theorem Reports.pure {b : β} (h : log (.ok b) []) : Reports (pure b) log :=
  fun events => ⟨[], (List.append_nil events).symm, h⟩

theorem Reports.report_then {event : Event} {next : Build β}
    (h : next.Reports fun result later => log result (event :: later)) :
    Reports (do report event; next) log := by
  intro events
  obtain ⟨later, hlater, hlog⟩ := h (events ++ [event])
  refine ⟨event :: later, ?_, hlog⟩
  rw [runFrom_bind]
  exact hlater.trans (List.append_assoc events [event] later)

theorem Reports.outcome {build : Build β} (h : build.Reports log) :
    log build.outcome.1 build.outcome.2 := by
  obtain ⟨reported, hevents, hlog⟩ := h []
  rw [List.nil_append] at hevents
  rwa [← hevents] at hlog

end Build

theorem Tree.outputs_raise_ne_iff {floor : Binary32} {t : Tree} :
    (t.raise floor).outputs ≠ t.outputs ↔ t.minLeaf < floor := by
  constructor
  · intro hne
    by_contra hlt
    rw [raise_of_not_lt hlt] at hne
    exact hne rfl
  · intro hlt heq
    -- The same outputs have the same least one, which the floor has left behind.
    have hleast : (t.raise floor).minLeaf = t.minLeaf := by rw [minLeaf_eq, minLeaf_eq, heq]
    have hle := le_minLeaf_raise (lt_iff.1 hlt).2.1 t
    rw [hleast] at hle
    exact not_lt_of_le hle hlt

theorem Tree.raise_eq_iff {floor : Binary32} {t : Tree} :
    t.raise floor = t ↔ ¬t.minLeaf < floor := by
  constructor
  · intro heq hlt
    exact outputs_raise_ne_iff.2 hlt (by rw [heq])
  · exact raise_of_not_lt

/-- How many trees have other leaf outputs once they are raised to a floor. -/
def shiftedBy (floor : Binary32) (trees : List Tree) : Nat :=
  trees.countP fun t => (t.raise floor).outputs ≠ t.outputs

theorem Ensemble.countBelow_eq (floor : Binary32) (e : Ensemble) :
    e.countBelow floor = shiftedBy floor e.trees := by
  rw [countBelow, shiftedBy, trees, List.countP_map]
  apply List.countP_congr
  intro term _
  simp only [Function.comp_apply, decide_eq_true_eq, Tree.outputs_raise_ne_iff]

theorem shiftedBy_pos_iff {floor : Binary32} {trees : List Tree} :
    0 < shiftedBy floor trees ↔ trees.map (Tree.raise floor) ≠ trees := by
  have hunchanged : trees.map (Tree.raise floor) = trees.map id ↔
      ∀ t ∈ trees, t.raise floor = id t := List.map_inj_left
  rw [List.map_id] at hunchanged
  rw [shiftedBy, List.countP_pos_iff, ne_eq, hunchanged]
  simp only [decide_eq_true_eq, Tree.outputs_raise_ne_iff, id_eq, Tree.raise_eq_iff, not_forall,
    Classical.not_not, exists_prop]

def floored (trees : List Tree) : Option Binary32 → List Tree
  | some floor => trees.map (Tree.raise floor)
  | none => trees

/-- What is reported of the floor: nothing unless a tree is changed by it. -/
inductive FloorLog (trees : List Tree) : Option Binary32 → List Event → Prop
  | unset : FloorLog trees none []
  | unchanged {floor : Binary32} (h : trees.map (Tree.raise floor) = trees) :
      FloorLog trees (some floor) []
  | raised {floor : Binary32} (h : trees.map (Tree.raise floor) ≠ trees) :
      FloorLog trees (some floor) [.raised floor (shiftedBy floor trees) trees.length]

def TreeModel.conversion : TreeModel → List Event
  | naive _ => []
  | flat f => [.flattened f.roots.size f.slots.size]
  | packed p => [.packed p.roots.size p.buffer.size]

def Encoding.convert (encoding : Encoding) (e : Ensemble) : Except ModelError TreeModel :=
  match encoding with
  | naive => .ok (.naive e)
  | flat => (FlatEnsemble.ofEnsemble e).map .flat
  | packed => (PackedEnsemble.ofEnsemble e).map .packed

structure Ensemble.Prepared (trees : List Tree) (weights : List Binary32) (featureCount : Nat)
    (config : ModelConfig) (e : Ensemble) : Prop where
  trees_eq : e.trees = floored trees config.leafFloor
  weights_eq : e.weights = weights
  featureCount_eq : e.featureCount = featureCount
  objective_eq : e.objective = config.objective

/-- The outcomes of loading, each with the events of the stages that were completed. -/
inductive LoadLog (trees : List Tree) (weights : List Binary32) (featureCount : Nat)
    (config : ModelConfig) : Except ModelError TreeModel → List Event → Prop
  | refused {rank : Nat} {cause : ModelError} (hrank : rank < 5)
      (hobjection : LoadObjection trees weights featureCount config rank cause)
      (hbefore : Unopposed (LoadObjection trees weights featureCount config) rank) :
      LoadLog trees weights featureCount config (.error cause) []
  | unconverted {e : Ensemble} {cause : ModelError} {raised : List Event}
      (hchecked : Unopposed (LoadObjection trees weights featureCount config) 5)
      (he : e.Prepared trees weights featureCount config)
      (hraised : FloorLog trees config.leafFloor raised)
      (hconvert : config.encoding.convert e = .error cause) :
      LoadLog trees weights featureCount config (.error cause)
        (.built trees.length featureCount config.objective :: raised)
  | loaded {e : Ensemble} {model : TreeModel} {raised : List Event}
      (hchecked : Unopposed (LoadObjection trees weights featureCount config) 5)
      (he : e.Prepared trees weights featureCount config)
      (hraised : FloorLog trees config.leafFloor raised)
      (hconvert : config.encoding.convert e = .ok model) :
      LoadLog trees weights featureCount config (.ok model)
        (.built trees.length featureCount config.objective ::
          (raised ++ (model.conversion ++ [.loaded model.name featureCount model.memory])))

namespace Ensemble

theorem treeCount_eq (e : Ensemble) : e.treeCount = e.trees.length := (List.length_map _).symm

theorem ofTrees_fields {trees : List Tree} {weights : List Binary32} {featureCount : Nat}
    {objective : Objective} {e : Ensemble}
    (h : ofTrees trees weights featureCount objective = .ok e) :
    e.trees = trees ∧ e.weights = weights ∧ e.featureCount = featureCount ∧
      e.objective = objective := by
  have hlength := (ofTrees_ok h).1
  rw [ofTrees] at h
  split at h
  · cases h
  · split at h
    · cases h
    · obtain rfl := Except.ok.inj h
      exact ⟨map_tree_zipWith hlength, map_weight_zipWith hlength, rfl, rfl⟩

end Ensemble

theorem Ensemble.Prepared.of_built {trees : List Tree} {weights : List Binary32}
    {featureCount : Nat} {config : ModelConfig} {e : Ensemble}
    (h : ofTrees trees weights featureCount config.objective = .ok e) :
    (config.leafFloor.elim e fun floor => e.raise floor).Prepared trees weights featureCount
      config := by
  obtain ⟨htrees, hweights, hcount, hobjective⟩ := ofTrees_fields h
  constructor
  all_goals cases config.leafFloor
  · exact htrees
  · rw [Option.elim_some, trees_raise, htrees, floored]
  · exact hweights
  · rw [Option.elim_some, weights_raise, hweights]
  · exact hcount
  · exact hcount
  · exact hobjective
  · exact hobjective

namespace Build

theorem raiseTo_reports (floor : Option Binary32) {e : Ensemble} {trees : List Tree}
    (h : e.trees = trees) :
    Reports (raiseTo floor e) fun outcome reported =>
      outcome = .ok (floor.elim e fun floor => e.raise floor) ∧
        FloorLog trees floor reported := by
  cases floor with
  | none => exact Reports.pure ⟨rfl, .unset⟩
  | some floor =>
    rw [raiseTo, raise, e.countBelow_eq, e.treeCount_eq, h]
    by_cases hshifted : 0 < shiftedBy floor trees
    · rw [if_pos hshifted]
      apply Reports.report_then
      exact Reports.pure ⟨rfl, .raised (shiftedBy_pos_iff.1 hshifted)⟩
    · rw [if_neg hshifted]
      apply Reports.pure
      exact ⟨rfl, .unchanged (Classical.not_not.1 (mt shiftedBy_pos_iff.2 hshifted))⟩

def conversionOf : Except ModelError TreeModel → List Event
  | .ok model => model.conversion
  | .error _ => []

theorem convert_reports {α : Type} {result : Except ModelError α} {event : Event}
    {wrap : α → TreeModel} (h : ∀ a, result = .ok a → (wrap a).conversion = [event]) :
    Reports (do
        let a ← (do
          let a ← (liftM result : Build α)
          report event
          return a)
        return wrap a)
      fun outcome reported => outcome = result.map wrap ∧ reported = conversionOf outcome := by
  intro events
  cases result with
  | error cause => exact ⟨[], (List.append_nil events).symm, rfl, rfl⟩
  | ok a => exact ⟨[event], rfl, rfl, (h a rfl).symm⟩

theorem encode_reports (encoding : Encoding) (e : Ensemble) :
    Reports (encode encoding e) fun outcome reported => outcome = encoding.convert e ∧
      reported = conversionOf outcome := by
  cases encoding with
  | naive => exact Reports.pure ⟨rfl, rfl⟩
  | flat =>
    apply convert_reports
    intro f hf
    have hslots : f.slots.size = e.width FlatSlot.widths := FlatEnsemble.nodeCount_eq hf
    rw [TreeModel.conversion, FlatEnsemble.size_roots hf, hslots]
  | packed =>
    apply convert_reports
    intro p hp
    have hbuffer : p.buffer.size = e.width PackedStore.widths := PackedEnsemble.byteCount_eq hp
    rw [TreeModel.conversion, PackedEnsemble.size_roots hp, hbuffer]

variable {trees : List Tree} {weights : List Binary32} {featureCount : Nat} {config : ModelConfig}

theorem LoadLog.of_first {cause : ModelError}
    (h : FirstObjection (LoadObjection trees weights featureCount config) cause)
    (hkind : cause.kind ≠ .capacityExceeded) :
    LoadLog trees weights featureCount config (.error cause) [] := by
  obtain ⟨rank, hobjection, hbefore⟩ := h
  refine .refused ?_ hobjection hbefore
  by_contra hrank
  rw [hobjection.kind_eq, if_neg (by omega), if_neg hrank] at hkind
  exact hkind rfl

theorem limitFeatures_reports (featureCount limit : Nat) :
    Reports (limitFeatures featureCount limit) fun outcome reported => reported = [] ∧
      ∀ cause, outcome = .error cause → cause = .tooManyFeatures featureCount limit := by
  rw [limitFeatures]
  split
  · intro events
    refine ⟨[], (List.append_nil events).symm, rfl, ?_⟩
    rintro cause ⟨⟩
    rfl
  · apply Reports.pure
    refine ⟨rfl, ?_⟩
    rintro cause ⟨⟩

theorem ensemble_reports (trees : List Tree) (weights : List Binary32) (featureCount : Nat)
    (objective : Objective) :
    Reports (ensemble trees weights featureCount objective) fun outcome reported =>
      outcome = Ensemble.ofTrees trees weights featureCount objective ∧
        reported = match outcome with
          | .ok _ => [.built trees.length featureCount objective]
          | .error _ => [] := by
  apply (Reports.lift _).bind
  · rintro e _ ⟨he, rfl⟩
    apply Reports.report_then
    apply Reports.pure
    refine ⟨he, ?_⟩
    rw [e.treeCount_eq, (Ensemble.ofTrees_fields he.symm).1]
    rfl
  · rintro cause _ ⟨hcause, rfl⟩
    exact ⟨hcause, rfl⟩

theorem encoded_reports {e : Ensemble} {raised : List Event}
    (hchecked : Unopposed (LoadObjection trees weights featureCount config) 5)
    (he : e.Prepared trees weights featureCount config)
    (hraised : FloorLog trees config.leafFloor raised) :
    Reports (do
        let model ← encode config.encoding e
        report (.loaded model.name featureCount model.memory)
        return model)
      fun outcome later => LoadLog trees weights featureCount config outcome
        (.built trees.length featureCount config.objective :: (raised ++ later)) := by
  apply (encode_reports config.encoding e).bind
  · rintro model _ ⟨hconvert, rfl⟩
    apply Reports.report_then
    apply Reports.pure
    exact .loaded hchecked he hraised hconvert.symm
  · rintro cause _ ⟨hconvert, rfl⟩
    rw [conversionOf, List.append_nil]
    exact .unconverted hchecked he hraised hconvert.symm

theorem load_reports :
    Reports (TreeModel.load trees weights featureCount config)
      (LoadLog trees weights featureCount config) := by
  apply ((Reports.lift config.validate).ends validate_ends).bind
  · rintro _ _ ⟨⟨_, rfl⟩, hvalid⟩
    apply ((limitFeatures_reports _ _).ends (limitFeatures_ends hvalid)).bind
    · rintro _ _ ⟨⟨rfl, _⟩, hlimited⟩
      apply ((ensemble_reports _ _ _ _).ends (ensemble_ends hlimited)).bind
      · rintro e _ ⟨⟨hbuilt, rfl⟩, hchecked, _⟩
        apply (raiseTo_reports config.leafFloor (Ensemble.ofTrees_fields hbuilt.symm).1).bind
        · rintro _ raised ⟨hfloored, hraised⟩
          obtain rfl := Except.ok.inj hfloored
          exact encoded_reports hchecked (.of_built hbuilt.symm) hraised
        · rintro _ _ ⟨hfloored, _⟩
          exact nomatch hfloored
      · rintro cause _ ⟨⟨hrefused, rfl⟩, hfirst⟩
        apply LoadLog.of_first hfirst
        rcases Ensemble.ofTrees_error hrefused.symm with ⟨_, rfl⟩ | ⟨_, _, _, _, rfl⟩
        · exact nofun
        · exact nofun
    · rintro cause _ ⟨⟨rfl, hover⟩, hfirst⟩
      apply LoadLog.of_first hfirst
      rw [hover cause rfl]
      exact nofun
  · rintro cause _ ⟨⟨hrefused, rfl⟩, hfirst⟩
    apply LoadLog.of_first hfirst
    rcases ModelConfig.validate_error hrefused.symm with ⟨_, _, _, rfl⟩ | ⟨_, _, rfl⟩
    · exact nofun
    · exact nofun

end Build

/-- What loading reports is what was built. -/
theorem TreeModel.load_reports_what_was_built (trees : List Tree) (weights : List Binary32)
    (featureCount : Nat) (config : ModelConfig) :
    LoadLog trees weights featureCount config
      (load trees weights featureCount config).outcome.1
      (load trees weights featureCount config).outcome.2 :=
  Build.load_reports.outcome

end Relevance
