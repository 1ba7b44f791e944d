import Relevance.Proofs.BuildRuns
import Relevance.Proofs.EnsembleShape

namespace Relevance

open Build

section

variable (objection : Nat → ModelError → Prop)

/-- Nothing is objected below a rank. -/
def Unopposed (rank : Nat) : Prop := ∀ earlier < rank, ∀ cause, ¬objection earlier cause

/-- An objection that none of a lower rank comes before. -/
def FirstObjection (cause : ModelError) : Prop :=
  ∃ rank, objection rank cause ∧ Unopposed objection rank

variable {objection}

theorem unopposed_zero : Unopposed objection 0 := by
  intro earlier hlt
  exact absurd hlt (Nat.not_lt_zero earlier)

theorem Unopposed.succ {rank : Nat} (h : Unopposed objection rank)
    (hrank : ∀ cause, ¬objection rank cause) : Unopposed objection (rank + 1) := by
  intro earlier hlt
  rcases Nat.lt_succ_iff_lt_or_eq.1 hlt with hlt | rfl
  · exact h earlier hlt
  · exact hrank

theorem FirstObjection.unique {cause other : ModelError}
    (hunique : ∀ rank a b, objection rank a → objection rank b → a = b)
    (h : FirstObjection objection cause) (hother : FirstObjection objection other) :
    cause = other := by
  obtain ⟨rank, hrank, hbelow⟩ := h
  obtain ⟨next, hnext, hbelow'⟩ := hother
  rcases Nat.lt_trichotomy rank next with hlt | rfl | hlt
  · exact absurd hrank (hbelow' rank hlt cause)
  · exact hunique rank cause other hrank hnext
  · exact absurd hnext (hbelow next hlt other)

end

inductive LoadObjection (trees : List Tree) (weights : List Binary32) (featureCount : Nat)
    (config : ModelConfig) : Nat → ModelError → Prop
  | floor {floor : Binary32} (h : config.leafFloor = some floor) (hfloor : ¬floor.isFinite) :
      LoadObjection trees weights featureCount config 0 (.floorNotFinite floor)
  | limit (h : config.maxFeatures = 0) :
      LoadObjection trees weights featureCount config 1 .noFeaturesAllowed
  | features (h : config.maxFeatures < featureCount) :
      LoadObjection trees weights featureCount config 2
        (.tooManyFeatures featureCount config.maxFeatures)
  | weights (h : trees.length ≠ weights.length) :
      LoadObjection trees weights featureCount config 3 (.weightCount trees.length weights.length)
  | split {before after : List Tree} {t : Tree} {largest : Nat} (h : trees = before ++ t :: after)
      (hbefore : ∀ s ∈ before, ∀ feature ∈ s.features, feature < featureCount)
      (hlargest : largest ∈ t.features) (hmost : ∀ feature ∈ t.features, feature ≤ largest)
      (houtside : featureCount ≤ largest) :
      LoadObjection trees weights featureCount config 4
        (.splitOutOfRange before.length largest featureCount)
  | ordinal {t : Tree} {feature : Nat} (h : config.encoding ≠ .naive) (ht : t ∈ trees)
      (hfeature : feature ∈ t.features) (hwide : 32767 < feature) :
      LoadObjection trees weights featureCount config 5 (.capacity .featureOrdinal)

def Encoding.space (trees : List Tree) : Encoding → Nat
  | naive => 0
  | flat => (trees.map (Tree.extent FlatSlot.widths)).sum
  | packed => (trees.map (Tree.extent PackedStore.widths)).sum

theorem first_unique {α : Type} {P : α → Prop} {before after others rest : List α} {a b : α}
    (h : before ++ a :: after = others ++ b :: rest) (ha : P a) (hb : P b)
    (hbefore : ∀ x ∈ before, ¬P x) (hothers : ∀ x ∈ others, ¬P x) : before = others ∧ a = b := by
  induction before generalizing others with
  | nil =>
    cases others with
    | nil => exact ⟨rfl, (List.cons.inj h).1⟩
    | cons x others =>
      obtain ⟨rfl, _⟩ := List.cons.inj h
      exact absurd ha (hothers a List.mem_cons_self)
  | cons y before ih =>
    cases others with
    | nil =>
      obtain ⟨rfl, _⟩ := List.cons.inj h
      exact absurd hb (hbefore y List.mem_cons_self)
    | cons x others =>
      obtain ⟨rfl, htail⟩ := List.cons.inj h
      obtain ⟨rfl, heq⟩ := ih htail (List.forall_mem_cons.1 hbefore).2
        (List.forall_mem_cons.1 hothers).2
      exact ⟨rfl, heq⟩

namespace LoadObjection

variable {trees : List Tree} {weights : List Binary32} {featureCount : Nat} {config : ModelConfig}
  {rank : Nat} {cause other : ModelError}

theorem unique (h : LoadObjection trees weights featureCount config rank cause)
    (hother : LoadObjection trees weights featureCount config rank other) : cause = other := by
  cases h with
  | floor h _ =>
    cases hother with
    | floor hother _ =>
      rw [h] at hother
      rw [Option.some.inj hother]
  | limit => cases hother with | limit => rfl
  | features => cases hother with | features => rfl
  | weights => cases hother with | weights => rfl
  | @split before after t largest h hbefore hlargest hmost houtside =>
    cases hother with
    | @split others rest s most hother hothers hmem hmax hover =>
      have hlists : before = others ∧ t = s := by
        rw [h] at hother
        apply first_unique (P := fun t => ∃ feature ∈ t.features, featureCount ≤ feature) hother
          ⟨largest, hlargest, houtside⟩ ⟨most, hmem, hover⟩
        · rintro t ht ⟨feature, hfeature, hle⟩
          exact Nat.not_lt_of_le hle (hbefore t ht feature hfeature)
        · rintro t ht ⟨feature, hfeature, hle⟩
          exact Nat.not_lt_of_le hle (hothers t ht feature hfeature)
      obtain ⟨rfl, rfl⟩ := hlists
      rw [Nat.le_antisymm (hmax largest hlargest) (hmost most hmem)]
  | ordinal => cases hother with | ordinal => rfl

theorem rank_lt (h : LoadObjection trees weights featureCount config rank cause) : rank < 6 := by
  cases h <;> decide

theorem kind_eq (h : LoadObjection trees weights featureCount config rank cause) :
    cause.kind =
      if rank < 2 then .configuration else if rank < 5 then .malformedModel
      else .capacityExceeded := by
  cases h <;> rfl

theorem congr {twin : ModelConfig} (hfloor : config.leafFloor = twin.leafFloor)
    (hlimit : config.maxFeatures = twin.maxFeatures) (hrank : rank < 5)
    (h : LoadObjection trees weights featureCount config rank cause) :
    LoadObjection trees weights featureCount twin rank cause := by
  cases h with
  | floor h hfinite => exact .floor (hfloor ▸ h) hfinite
  | limit h => exact .limit (hlimit ▸ h)
  | features h =>
    rw [hlimit] at h ⊢
    exact .features h
  | weights h => exact .weights h
  | split h hbefore hlargest hmost houtside => exact .split h hbefore hlargest hmost houtside
  | ordinal => exact absurd hrank (Nat.lt_irrefl 5)

theorem of_outside {tree largest : Nat}
    (h : Ensemble.outside? trees featureCount = some (tree, largest)) :
    LoadObjection trees weights featureCount config 4
      (.splitOutOfRange tree largest featureCount) := by
  obtain ⟨before, t, after, htrees, rfl, hbefore, hmax, hle⟩ := Ensemble.outside?_eq_some h
  rw [Tree.maxFeature_eq, List.max?_eq_some_iff] at hmax
  exact .split htrees hbefore hmax.1 hmax.2 hle

theorem not_split (h : Ensemble.outside? trees featureCount = none) (cause : ModelError) :
    ¬LoadObjection trees weights featureCount config 4 cause := by
  rintro (_ | _ | _ | _ | ⟨htrees, _, hlargest, _, hle⟩)
  apply Nat.not_lt_of_le hle
  apply Ensemble.features_lt_of_outside h _ hlargest
  rw [htrees]
  exact List.mem_append_right _ List.mem_cons_self

end LoadObjection

namespace ModelConfig

variable {config : ModelConfig}

def FloorFinite (config : ModelConfig) : Prop :=
  ∀ floor, config.leafFloor = some floor → floor.isFinite

theorem floorFinite_none (h : config.leafFloor = none) : config.FloorFinite := by
  intro floor hfloor
  rw [h] at hfloor
  exact nomatch hfloor

theorem floorFinite_some {floor : Binary32} (h : config.leafFloor = some floor)
    (hfinite : floor.isFinite = true) : config.FloorFinite := by
  intro other hother
  rw [h] at hother
  rwa [← Option.some.inj hother]

theorem validate_ok (h : config.validate = .ok ()) :
    config.FloorFinite ∧ config.maxFeatures ≠ 0 := by
  rw [validate] at h
  split at h
  · rename_i floor hfloor
    split at h
    · exact nomatch h
    · rename_i hfinite
      split at h
      · exact nomatch h
      · rename_i hlimit
        exact ⟨floorFinite_some hfloor (by simpa using hfinite), hlimit⟩
  · rename_i hnone
    split at h
    · exact nomatch h
    · rename_i hlimit
      exact ⟨floorFinite_none hnone, hlimit⟩

theorem validate_error {cause : ModelError} (h : config.validate = .error cause) :
    (∃ floor, config.leafFloor = some floor ∧ ¬floor.isFinite ∧ cause = .floorNotFinite floor) ∨
      (config.FloorFinite ∧ config.maxFeatures = 0 ∧ cause = .noFeaturesAllowed) := by
  rw [validate] at h
  split at h
  · rename_i floor hfloor
    split at h
    · rename_i hinfinite
      exact .inl ⟨floor, hfloor, by simpa using hinfinite, (Except.error.inj h).symm⟩
    · rename_i hfinite
      split at h
      · rename_i hlimit
        exact .inr
          ⟨floorFinite_some hfloor (by simpa using hfinite), hlimit, (Except.error.inj h).symm⟩
      · exact nomatch h
  · rename_i hnone
    split at h
    · rename_i hlimit
      exact .inr ⟨floorFinite_none hnone, hlimit, (Except.error.inj h).symm⟩
    · exact nomatch h

end ModelConfig

section

variable {trees : List Tree} {weights : List Binary32} {featureCount : Nat} {config : ModelConfig}

theorem unopposed_of_floor (h : config.FloorFinite) :
    Unopposed (LoadObjection trees weights featureCount config) 1 := by
  apply unopposed_zero.succ
  rintro _ ⟨hsome, hinfinite⟩
  exact hinfinite (h _ hsome)

theorem validate_ends :
    Ends (liftM config.validate)
      (fun _ => Unopposed (LoadObjection trees weights featureCount config) 2)
      (FirstObjection (LoadObjection trees weights featureCount config)) := by
  apply Ends.lift
  · intro _ hok
    obtain ⟨hfloor, hlimit⟩ := ModelConfig.validate_ok hok
    apply (unopposed_of_floor hfloor).succ
    rintro _ (_ | hzero)
    exact hlimit hzero
  · intro cause herror
    rcases ModelConfig.validate_error herror with ⟨floor, hsome, hinfinite, rfl⟩ |
      ⟨hfloor, hlimit, rfl⟩
    · exact ⟨0, .floor hsome hinfinite, unopposed_zero⟩
    · exact ⟨1, .limit hlimit, unopposed_of_floor hfloor⟩

theorem limitFeatures_ends
    (h : Unopposed (LoadObjection trees weights featureCount config) 2) :
    Ends (limitFeatures featureCount config.maxFeatures)
      (fun _ => Unopposed (LoadObjection trees weights featureCount config) 3)
      (FirstObjection (LoadObjection trees weights featureCount config)) := by
  intro events
  rw [limitFeatures]
  by_cases hlimit : config.maxFeatures < featureCount
  · rw [if_pos hlimit]
    exact ⟨2, .features hlimit, h⟩
  · rw [if_neg hlimit]
    apply h.succ
    rintro _ (_ | _ | hover)
    exact hlimit hover

theorem ensemble_ends (h : Unopposed (LoadObjection trees weights featureCount config) 3) :
    Ends (ensemble trees weights featureCount config.objective)
      (fun e => Unopposed (LoadObjection trees weights featureCount config) 5 ∧ e.ShapedAs trees)
      (FirstObjection (LoadObjection trees weights featureCount config)) := by
  have hcounts (hlength : trees.length = weights.length) :
      Unopposed (LoadObjection trees weights featureCount config) 4 := by
    apply h.succ
    rintro _ (_ | _ | _ | hne)
    exact hne hlength
  have hbuilt : Ends (liftM (Ensemble.ofTrees trees weights featureCount config.objective))
      (fun e => Unopposed (LoadObjection trees weights featureCount config) 5 ∧ e.ShapedAs trees)
      (FirstObjection (LoadObjection trees weights featureCount config)) := by
    apply Ends.lift
    · intro e hok
      obtain ⟨hlength, houtside, hshaped⟩ := Ensemble.ofTrees_ok hok
      exact ⟨(hcounts hlength).succ (LoadObjection.not_split houtside), hshaped⟩
    · intro cause herror
      rcases Ensemble.ofTrees_error herror with ⟨hlength, rfl⟩ |
        ⟨hlength, tree, largest, houtside, rfl⟩
      · exact ⟨3, .weights hlength, h⟩
      · exact ⟨4, .of_outside houtside, hcounts hlength⟩
  apply hbuilt.bind
  intro e he
  apply (Ends.report _).bind
  intro _ _
  exact Ends.pure he

theorem raiseTo_ends {e : Ensemble} (h : e.ShapedAs trees) (floor : Option Binary32)
    (Refused : ModelError → Prop) : Ends (raiseTo floor e) (·.ShapedAs trees) Refused := by
  cases floor with
  | none => exact Ends.pure h
  | some floor =>
    intro events
    rw [raiseTo, raise]
    by_cases hshifted : 0 < e.countBelow floor
    · rw [if_pos hshifted]
      exact h.raise floor
    · rw [if_neg hshifted]
      exact h.raise floor

theorem convert_ends (h : Unopposed (LoadObjection trees weights featureCount config) 5)
    {e : Ensemble} (he : e.ShapedAs trees) (hencoding : config.encoding ≠ .naive) {α : Type}
    {result : Except ModelError α} {event : Event}
    (hwide : e.hasWideOrdinal = true → result = .error (.capacity .featureOrdinal))
    (hfits : e.hasWideOrdinal = false → ∃ a, result = .ok a) :
    Ends (do
        let a ← (liftM result : Build α)
        report event
        return a)
      (fun _ => Unopposed (LoadObjection trees weights featureCount config) 6)
      (FirstObjection (LoadObjection trees weights featureCount config)) := by
  have hordinals := he.hasWideOrdinal_iff
  intro events
  cases hordinal : e.hasWideOrdinal with
  | true =>
    rw [hwide hordinal]
    obtain ⟨t, ht, feature, hfeature, hlt⟩ := hordinals.1 hordinal
    exact ⟨5, .ordinal hencoding ht hfeature hlt, h⟩
  | false =>
    obtain ⟨a, rfl⟩ := hfits hordinal
    apply h.succ
    rintro _ (_ | _ | _ | _ | _ | ⟨_, ht, hfeature, hlt⟩)
    rw [hordinals.2 ⟨_, ht, _, hfeature, hlt⟩] at hordinal
    exact nomatch hordinal

theorem encode_ends (h : Unopposed (LoadObjection trees weights featureCount config) 5)
    {e : Ensemble} (he : e.ShapedAs trees) (hspace : config.encoding.space trees < 0x80000000) :
    Ends (encode config.encoding e)
      (fun model => Unopposed (LoadObjection trees weights featureCount config) 6 ∧
        model.encoding = config.encoding)
      (FirstObjection (LoadObjection trees weights featureCount config)) := by
  cases hencoding : config.encoding with
  | naive =>
    refine Ends.pure ⟨?_, rfl⟩
    apply h.succ
    rintro _ (_ | _ | _ | _ | _ | ⟨hne, _, _, _⟩)
    exact hne hencoding
  | flat =>
    rw [hencoding, Encoding.space, ← he.width_eq] at hspace
    have hflatten : Ends (flatten e)
        (fun _ => Unopposed (LoadObjection trees weights featureCount config) 6)
        (FirstObjection (LoadObjection trees weights featureCount config)) := by
      apply convert_ends h he (by simp [hencoding])
      · intro hwide
        exact if_pos hwide
      · intro hfits
        exact ⟨_, (if_neg (by simp [hfits])).trans (if_neg (Nat.not_le_of_lt hspace))⟩
    apply hflatten.bind
    intro f hf
    exact Ends.pure ⟨hf, rfl⟩
  | packed =>
    rw [hencoding, Encoding.space, ← he.width_eq] at hspace
    have hpack : Ends (pack e)
        (fun _ => Unopposed (LoadObjection trees weights featureCount config) 6)
        (FirstObjection (LoadObjection trees weights featureCount config)) := by
      apply convert_ends h he (by simp [hencoding])
      · intro hwide
        exact if_pos hwide
      · intro hfits
        exact ⟨_, (if_neg (by simp [hfits])).trans (if_neg (Nat.not_le_of_lt hspace))⟩
    apply hpack.bind
    intro p hp
    exact Ends.pure ⟨hp, rfl⟩

/-- Loading ends with a model against which nothing is said, or with the first objection. -/
theorem load_ends (hspace : config.encoding.space trees < 0x80000000) :
    Ends (TreeModel.load trees weights featureCount config)
      (fun model => Unopposed (LoadObjection trees weights featureCount config) 6 ∧
        model.encoding = config.encoding)
      (FirstObjection (LoadObjection trees weights featureCount config)) := by
  apply validate_ends.bind
  intro _ hvalid
  apply (limitFeatures_ends hvalid).bind
  intro _ hlimited
  apply (ensemble_ends hlimited).bind
  rintro e ⟨hbuilt, he⟩
  apply (raiseTo_ends he config.leafFloor _).bind
  intro raised hraised
  apply (encode_ends hbuilt hraised hspace).bind
  intro model hmodel
  apply (Ends.report _).bind
  intro _ _
  exact Ends.pure hmodel

theorem load_ok (hspace : config.encoding.space trees < 0x80000000) {model : TreeModel}
    (h : (TreeModel.load trees weights featureCount config).outcome.1 = .ok model) :
    model.encoding = config.encoding ∧
      ∀ rank cause, ¬LoadObjection trees weights featureCount config rank cause := by
  obtain ⟨hunopposed, hencoding⟩ := (load_ends hspace).done h
  refine ⟨hencoding, ?_⟩
  intro rank cause hobjection
  exact hunopposed rank hobjection.rank_lt cause hobjection

theorem load_error_iff (hspace : config.encoding.space trees < 0x80000000) (cause : ModelError) :
    (TreeModel.load trees weights featureCount config).outcome.1 = .error cause ↔
      FirstObjection (LoadObjection trees weights featureCount config) cause := by
  constructor
  · intro h
    exact (load_ends hspace).refused h
  · intro hfirst
    cases houtcome : (TreeModel.load trees weights featureCount config).outcome.1 with
    | ok model =>
      obtain ⟨rank, hobjection, _⟩ := hfirst
      exact absurd hobjection ((load_ok hspace houtcome).2 rank cause)
    | error other =>
      have hother := (load_ends hspace).refused houtcome
      have hunique : other = cause := hother.unique (fun _ _ _ ha hb => ha.unique hb) hfirst
      rw [hunique]

theorem load_ok_iff (hspace : config.encoding.space trees < 0x80000000) :
    (∃ model, (TreeModel.load trees weights featureCount config).outcome.1 = .ok model ∧
      model.encoding = config.encoding) ↔
      ∀ rank cause, ¬LoadObjection trees weights featureCount config rank cause := by
  constructor
  · rintro ⟨model, h, _⟩
    exact (load_ok hspace h).2
  · intro hnone
    cases houtcome : (TreeModel.load trees weights featureCount config).outcome.1 with
    | ok model => exact ⟨model, rfl, (load_ok hspace houtcome).1⟩
    | error cause =>
      obtain ⟨rank, hobjection, _⟩ := (load_ends hspace).refused houtcome
      exact absurd hobjection (hnone rank cause)

theorem rank_lt_five (hlimit : config.maxFeatures ≤ 32768) {rank : Nat} {cause : ModelError}
    (h : LoadObjection trees weights featureCount config rank cause)
    (hbelow : Unopposed (LoadObjection trees weights featureCount config) rank) : rank < 5 := by
  cases h with
  | @ordinal t feature hencoding ht hfeature hwide =>
    -- What came before leaves no more features than allowed and no ordinal beyond them.
    have hallowed : featureCount ≤ config.maxFeatures := by
      apply Nat.le_of_not_lt
      intro hover
      exact hbelow 2 (by decide) _ (.features hover)
    cases houtside : Ensemble.outside? trees featureCount with
    | none =>
      have hlt := Ensemble.features_lt_of_outside houtside ht hfeature
      omega
    | some found => exact absurd (.of_outside houtside) (hbelow 4 (by decide) _)
  | _ => decide

/-- With few enough features, the first objection is the same in all encodings. -/
theorem firstObjection_congr {twin : ModelConfig} (hfloor : config.leafFloor = twin.leafFloor)
    (hlimits : config.maxFeatures = twin.maxFeatures) (hlimit : config.maxFeatures ≤ 32768)
    {cause : ModelError}
    (h : FirstObjection (LoadObjection trees weights featureCount config) cause) :
    FirstObjection (LoadObjection trees weights featureCount twin) cause := by
  obtain ⟨rank, hobjection, hbelow⟩ := h
  have hrank : rank < 5 := rank_lt_five hlimit hobjection hbelow
  refine ⟨rank, hobjection.congr hfloor hlimits hrank, ?_⟩
  intro earlier hlt other hother
  exact hbelow earlier hlt other (hother.congr hfloor.symm hlimits.symm (by omega))

theorem load_congr {twin : ModelConfig} (hfloor : config.leafFloor = twin.leafFloor)
    (hlimits : config.maxFeatures = twin.maxFeatures) (hlimit : config.maxFeatures ≤ 32768)
    (hspace : config.encoding.space trees < 0x80000000)
    (htwin : twin.encoding.space trees < 0x80000000) :
    ((TreeModel.load trees weights featureCount twin).outcome.1.map fun _ => ()) =
      (TreeModel.load trees weights featureCount config).outcome.1.map fun _ => () := by
  cases houtcome : (TreeModel.load trees weights featureCount config).outcome.1 with
  | error cause =>
    have hfirst := (load_ends hspace).refused houtcome
    rw [(load_error_iff htwin cause).2 (firstObjection_congr hfloor hlimits hlimit hfirst)]
  | ok model =>
    cases hother : (TreeModel.load trees weights featureCount twin).outcome.1 with
    | ok other => rfl
    | error cause =>
      rw [hlimits] at hlimit
      have hfirst := (load_ends htwin).refused hother
      obtain ⟨rank, hobjection, _⟩ :=
        firstObjection_congr hfloor.symm hlimits.symm hlimit hfirst
      exact absurd hobjection ((load_ok hspace houtcome).2 rank cause)

end

namespace TreeModel

/-- Loading is refused for the first objection there is. -/
theorem load_refuses_first_objection (trees : List Tree) (weights : List Binary32)
    (featureCount : Nat) (config : ModelConfig)
    (hspace : config.encoding.space trees < 0x80000000) :
    (∀ cause, (load trees weights featureCount config).outcome.1 = .error cause ↔
      FirstObjection (LoadObjection trees weights featureCount config) cause) ∧
    ((∃ model, (load trees weights featureCount config).outcome.1 = .ok model ∧
      model.encoding = config.encoding) ↔
        ∀ rank cause, ¬LoadObjection trees weights featureCount config rank cause) ∧
    (∀ rank cause, LoadObjection trees weights featureCount config rank cause →
      cause.kind = if rank < 2 then .configuration else if rank < 5 then .malformedModel
        else .capacityExceeded) ∧
    (config.maxFeatures ≤ 32768 → ∀ encoding : Encoding, encoding.space trees < 0x80000000 →
      ((load trees weights featureCount { config with encoding := encoding }).outcome.1.map
        fun _ => ()) = (load trees weights featureCount config).outcome.1.map fun _ => ()) := by
  refine ⟨load_error_iff hspace, load_ok_iff hspace, fun _ _ => LoadObjection.kind_eq, ?_⟩
  intro hlimit encoding hother
  exact load_congr rfl rfl hlimit hspace hother

def wideTree : Tree := .split 32768 .zero (.leaf .zero) (.split 3 .zero (.leaf .zero) (.leaf .zero))

def wideConfig : ModelConfig := ⟨.identity, .flat, none, 40000⟩

def narrowConfig (encoding : Encoding) : ModelConfig := ⟨.identity, encoding, none, 4⟩

theorem load_refuses_first_objection_wide :
    FirstObjection (LoadObjection [wideTree] [.zero] 32769 wideConfig)
        (.capacity .featureOrdinal) ∧
      FirstObjection (LoadObjection [.leaf .zero, wideTree] [.zero, .zero] 4 (narrowConfig .packed))
        (.splitOutOfRange 1 32768 4) ∧
      ((load [.leaf .zero, wideTree] [.zero, .zero] 4 (narrowConfig .naive)).outcome.1.map
        fun _ => ()) = .error (.splitOutOfRange 1 32768 4) := by
  obtain ⟨hwide, _⟩ := load_refuses_first_objection [wideTree] [.zero] 32769 wideConfig (by decide)
  obtain ⟨hnarrow, _, _, hsame⟩ := load_refuses_first_objection [.leaf .zero, wideTree]
    [.zero, .zero] 4 (narrowConfig .packed) (by decide)
  have herror {outcome : Except ModelError TreeModel} {cause : ModelError}
      (h : (outcome.map fun _ => ()) = .error cause) : outcome = .error cause := by
    cases outcome with
    | ok model => exact nomatch h
    | error other => rw [Except.error.inj h]
  have hrefused : ((load [.leaf .zero, wideTree] [.zero, .zero] 4
      (narrowConfig .packed)).outcome.1.map fun _ => ()) = .error (.splitOutOfRange 1 32768 4) := by
    decide +kernel
  refine ⟨?_, ?_, ?_⟩
  · apply (hwide _).1
    apply herror
    decide +kernel
  · exact (hnarrow _).1 (herror hrefused)
  · exact (hsame (by decide) .naive (by decide)).trans hrefused

end TreeModel

end Relevance
