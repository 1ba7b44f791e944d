import Relevance.Proofs.NumberQuotient
import Relevance.Proofs.ScoringTotal
import Relevance.Ranker.Bulk

namespace Relevance

open Binary32

namespace Binary32

theorem isNaN_abs (x : Binary32) : x.abs.isNaN = x.isNaN := by
  have hmagnitude : x.magnitude < 0x80000000 := Nat.mod_lt _ (by decide)
  rw [Bool.eq_iff_iff, isNaN_iff, isNaN_iff, Binary32.abs, key_ofMagnitude _ hmagnitude, natAbs_key]
  rfl

theorem isNaN_sub_of_same {x y : Binary32} (h : x.Same y) (hfinite : x.isFinite = false) :
    (x - y).isNaN = true := by
  cases hn : x.isNaN with
  | true =>
    change (Binary32.sub x y).isNaN = true
    rw [Binary32.sub, if_pos hn]
    exact isNaN_quiet hn
  | false =>
    obtain rfl : x = y := h.resolve_right fun hboth => ne_true_of_eq_false hn hboth.1
    have hinfinite : x.isInfinite = true := by
      apply Bool.of_not_eq_false
      intro hinfinite
      exact ne_true_of_eq_false hfinite (isFinite_of_not_infinite hn hinfinite)
    rw [sub_eq_add_neg hn hn, isNaN_add_iff hn ((isNaN_neg x).trans hn)]
    exact ⟨hinfinite, key_neg x⟩

theorem abs_sub_le_iff {x y epsilon : Binary32} (h : x.Same y) (hepsilon : zero ≤ epsilon) :
    (x - y).abs ≤ epsilon ↔ x.isFinite = true := by
  constructor
  · intro hle
    apply Bool.of_not_eq_false
    intro hfinite
    have hdifference : (x - y).abs.isNaN = true := by
      rw [isNaN_abs]
      exact isNaN_sub_of_same h hfinite
    exact ne_true_of_eq_false (le_iff.1 hle).1 hdifference
  · intro hfinite
    have hn : x.isNaN = false := isNaN_of_isFinite hfinite
    obtain rfl : x = y := h.resolve_right fun hboth => ne_true_of_eq_false hn hboth.1
    rw [sub_self hfinite]
    exact hepsilon

end Binary32

section FirstRefusal

variable {α ε : Type} {step : α → Except ε Unit}

theorem forM_ok_iff {xs : List α} : xs.forM step = .ok () ↔ ∀ x ∈ xs, step x = .ok () := by
  induction xs with
  | nil => exact iff_of_true rfl fun x hx => absurd hx List.not_mem_nil
  | cons x xs ih =>
    rw [List.forall_mem_cons, ← ih]
    change (step x >>= fun _ => xs.forM step) = _ ↔ _
    cases step x with
    | ok => exact (and_iff_right rfl).symm
    | error fault => exact iff_of_false nofun fun h => nomatch h.1

theorem forM_error {xs : List α} {fault : ε} (h : xs.forM step = .error fault) :
    ∃ (i : Nat) (x : α), xs[i]? = some x ∧ step x = .error fault ∧
      ∀ j < i, ∀ y, xs[j]? = some y → step y = .ok () := by
  induction xs with
  | nil => exact nomatch h
  | cons x xs ih =>
    change (step x >>= fun _ => xs.forM step) = _ at h
    cases hx : step x with
    | error cause =>
      rw [hx] at h
      exact ⟨0, x, rfl, hx.trans h, fun j hj => absurd hj (Nat.not_lt_zero j)⟩
    | ok =>
      rw [hx] at h
      obtain ⟨i, y, hy, hfault, hbefore⟩ := ih h
      refine ⟨i + 1, y, hy, hfault, ?_⟩
      intro j hj z hz
      cases j with
      | zero =>
        cases hz
        exact hx
      | succ j => exact hbefore j (Nat.lt_of_succ_lt_succ hj) z hz

end FirstRefusal

theorem TreeModel.ConvertedFrom.predict_both {e : Ensemble} {a b : TreeModel}
    (ha : a.ConvertedFrom e) (hb : b.ConvertedFrom e) {source : FeatureSource}
    (hsource : source.Covers e.featureCount) :
    ∃ x y, a.predict source = some x ∧ b.predict source = some y ∧ x.Same y := by
  obtain ⟨score, hscore⟩ := Ensemble.predict_total hsource
  obtain ⟨x, hx, hsamex⟩ := ha.predict_of_ensemble hscore
  obtain ⟨y, hy, hsamey⟩ := hb.predict_of_ensemble hscore
  exact ⟨x, y, hx, hy, hsamex.symm.trans hsamey⟩

namespace Ranker

def compareRow {kind other : VectorKind} (a : Ranker kind) (b : Ranker other) (epsilon : Binary32)
    (row : Array Binary32) (i : Nat) : Except Fault Unit :=
  match a.scoreRow row, b.scoreRow row with
  | some first, some second =>
    if (first - second).abs ≤ epsilon then .ok ()
    else .error (.disagreement i a.name first b.name second)
  | _, _ => .error .outOfRange

theorem checkAgreement_eq {kind other : VectorKind} (a : Ranker kind) (b : Ranker other)
    (epsilon : Binary32) (rows : List (Array Binary32)) :
    a.checkAgreement b epsilon rows =
      rows.zipIdx.forM fun (row, i) => a.compareRow b epsilon row i :=
  rfl

variable {e : Ensemble} {a b : TreeModel} {epsilon : Binary32}

theorem compareRow_encoded (ha : a.ConvertedFrom e) (hb : b.ConvertedFrom e)
    (hepsilon : zero ≤ epsilon) {row : Array Binary32} (hrow : e.featureCount ≤ row.size)
    (i : Nat) :
    ∃ x y, a.predict (.ofRow row) = some x ∧ b.predict (.ofRow row) = some y ∧ x.Same y ∧
      (tree a).compareRow (tree b) epsilon row i =
        if x.isFinite = true then .ok () else .error (.disagreement i a.name x b.name y) := by
  obtain ⟨x, y, hx, hy, hsame⟩ := ha.predict_both hb (FeatureSource.covers_ofRow hrow)
  refine ⟨x, y, hx, hy, hsame, ?_⟩
  simp only [compareRow, scoreRow, hx, hy, abs_sub_le_iff hsame hepsilon]
  rfl

theorem compareRow_ok_iff (ha : a.ConvertedFrom e) (hb : b.ConvertedFrom e)
    (hepsilon : zero ≤ epsilon) {row : Array Binary32} (hrow : e.featureCount ≤ row.size)
    (i : Nat) :
    (tree a).compareRow (tree b) epsilon row i = .ok () ↔
      ∃ score, a.predict (.ofRow row) = some score ∧ score.isFinite = true := by
  obtain ⟨x, y, hx, _, _, hcompare⟩ := compareRow_encoded ha hb hepsilon hrow i
  rw [hcompare, hx]
  cases hfinite : x.isFinite with
  | true => exact iff_of_true rfl ⟨x, rfl, hfinite⟩
  | false =>
    apply iff_of_false nofun
    rintro ⟨score, hscore, hfinite'⟩
    cases hscore
    exact ne_true_of_eq_false hfinite hfinite'

section Rows

variable {rows : List (Array Binary32)}

theorem zipIdx_getElem? {i : Nat} {row : Array Binary32} (h : rows[i]? = some row) :
    rows.zipIdx[i]? = some (row, i) := by
  rw [List.getElem?_zipIdx, h, Nat.zero_add, Option.map_some]

theorem checkAgreement_ok_iff (ha : a.ConvertedFrom e) (hb : b.ConvertedFrom e)
    (hepsilon : zero ≤ epsilon) (hrows : ∀ row ∈ rows, e.featureCount ≤ row.size) :
    (tree a).checkAgreement (tree b) epsilon rows = .ok () ↔
      ∀ row ∈ rows, ∃ score, a.predict (.ofRow row) = some score ∧ score.isFinite = true := by
  rw [checkAgreement_eq, forM_ok_iff]
  constructor
  · intro hok row hrow
    obtain ⟨i, hi⟩ := List.mem_iff_getElem?.1 hrow
    have hcompare := hok (row, i) (List.mem_of_getElem? (zipIdx_getElem? hi))
    exact (compareRow_ok_iff ha hb hepsilon (hrows row hrow) i).1 hcompare
  · rintro hfinite ⟨row, i⟩ hmem
    have hrow : row ∈ rows := List.fst_mem_of_mem_zipIdx hmem
    exact (compareRow_ok_iff ha hb hepsilon (hrows row hrow) i).2 (hfinite row hrow)

theorem checkAgreement_error (ha : a.ConvertedFrom e) (hb : b.ConvertedFrom e)
    (hepsilon : zero ≤ epsilon) (hrows : ∀ row ∈ rows, e.featureCount ≤ row.size) {fault : Fault}
    (h : (tree a).checkAgreement (tree b) epsilon rows = .error fault) :
    ∃ (i : Nat) (row : Array Binary32) (x y : Binary32), rows[i]? = some row ∧
      a.predict (.ofRow row) = some x ∧ b.predict (.ofRow row) = some y ∧ x.Same y ∧
      x.isFinite = false ∧ fault = .disagreement i a.name x b.name y ∧
      ∀ j < i, ∀ before, rows[j]? = some before →
        ∃ score, a.predict (.ofRow before) = some score ∧ score.isFinite = true := by
  rw [checkAgreement_eq] at h
  obtain ⟨i, ⟨row, k⟩, hi, hcompare, hbefore⟩ := forM_error h
  rw [List.getElem?_zipIdx, Nat.zero_add] at hi
  obtain ⟨_, hrow, hpair⟩ := Option.map_eq_some_iff.1 hi
  cases hpair
  have hmem : row ∈ rows := List.mem_of_getElem? hrow
  obtain ⟨x, y, hx, hy, hsame, hspec⟩ := compareRow_encoded ha hb hepsilon (hrows row hmem) i
  simp only [hspec] at hcompare
  cases hfinite : x.isFinite with
  | true =>
    rw [hfinite] at hcompare
    exact nomatch hcompare
  | false =>
    rw [hfinite] at hcompare
    cases hcompare
    refine ⟨i, row, x, y, hrow, hx, hy, hsame, hfinite, rfl, ?_⟩
    intro j hj before hrow'
    have hmem' : before ∈ rows := List.mem_of_getElem? hrow'
    apply (compareRow_ok_iff ha hb hepsilon (hrows before hmem') j).1
    exact hbefore j hj (before, j) (zipIdx_getElem? hrow')

/-- The check passes for two encodings of one ensemble exactly if all scores are finite. -/
theorem agreement_iff_finite (ha : a.ConvertedFrom e) (hb : b.ConvertedFrom e)
    (hepsilon : zero ≤ epsilon) (hrows : ∀ row ∈ rows, e.featureCount ≤ row.size) :
    ((tree a).checkAgreement (tree b) epsilon rows = .ok () ↔
        ∀ row ∈ rows, ∃ score, a.predict (.ofRow row) = some score ∧ score.isFinite = true) ∧
      ∀ fault, (tree a).checkAgreement (tree b) epsilon rows = .error fault →
        ∃ (i : Nat) (row : Array Binary32) (x y : Binary32), rows[i]? = some row ∧
          a.predict (.ofRow row) = some x ∧ b.predict (.ofRow row) = some y ∧ x.Same y ∧
          x.isFinite = false ∧ fault = .disagreement i a.name x b.name y ∧
          ∀ j < i, ∀ before, rows[j]? = some before →
            ∃ score, a.predict (.ofRow before) = some score ∧ score.isFinite = true := by
  apply And.intro (checkAgreement_ok_iff ha hb hepsilon hrows)
  intro fault
  exact checkAgreement_error ha hb hepsilon hrows

end Rows

def doubled : Ensemble where
  terms := [⟨.split 0 ⟨0x3f000000⟩ (.leaf .one) (.leaf ⟨0xc0000000⟩), ⟨0x40000000⟩⟩]
  featureCount := 1
  objective := .identity
  features_lt := by decide

def doubledFlat : FlatEnsemble where
  roots := #[0]
  slots := #[⟨0, ⟨0x3f000000⟩, 2⟩, ⟨-1, ⟨0x40000000⟩, 0⟩, ⟨-1, ⟨0xc0800000⟩, 0⟩]
  featureCount := 1
  objective := .identity

theorem agreement_iff_finite_doubled :
    FlatEnsemble.ofEnsemble doubled = .ok doubledFlat ∧
      (tree (.naive doubled)).checkAgreement (tree (.flat doubledFlat)) .zero
        [#[zero], #[nan, one]] = .ok () := by
  have hflat : FlatEnsemble.ofEnsemble doubled = .ok doubledFlat := by decide +kernel
  have hrows : ∀ row ∈ [#[zero], #[nan, one]], doubled.featureCount ≤ row.size := by decide
  apply And.intro hflat
  apply (agreement_iff_finite .naive (.flat hflat) (le_refl rfl) hrows).1.2
  rw [List.forall_mem_cons, List.forall_mem_singleton]
  constructor
  · exact ⟨⟨0x40000000⟩, by decide +kernel, by decide⟩
  · exact ⟨⟨0xc0800000⟩, by decide +kernel, by decide⟩

/-- One leaf, whose product with its weight is infinite. -/
def overflowing : Ensemble where
  terms := [⟨.leaf ⟨0x7f7fffff⟩, ⟨0x40000000⟩⟩]
  featureCount := 0
  objective := .identity
  features_lt := by decide

def overflowingFlat : FlatEnsemble where
  roots := #[0]
  slots := #[⟨-1, .infinity, 0⟩]
  featureCount := 0
  objective := .identity

/-- Both encodings score the row with infinity, but the check refuses it. -/
theorem infinite_scores_refused :
    FlatEnsemble.ofEnsemble overflowing = .ok overflowingFlat ∧
      (tree (.naive overflowing)).scoreRow #[] = some .infinity ∧
      (tree (.flat overflowingFlat)).scoreRow #[] = some .infinity ∧
      Binary32.infinity.isNaN = false ∧
      (tree (.naive overflowing)).checkAgreement (tree (.flat overflowingFlat)) .zero [#[]] =
        .error (.disagreement 0 "naive_additive_decision_tree" .infinity
          "prim_additive_decision_tree" .infinity) := by
  decide +kernel

end Ranker

end Relevance
