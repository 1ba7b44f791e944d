import Relevance.Tree.Basic

namespace Relevance.Tree

inductive Side
  | left
  | right

namespace Side

instance : LT Side := ⟨fun side other => side = left ∧ other = right⟩

theorem left_lt_right : left < right := ⟨rfl, rfl⟩

instance : Std.Irrefl fun side other : Side => side < other where
  irrefl _ h := nomatch h.1.symm.trans h.2

end Side

/-- The way from the root to a node; the order of places is preorder. -/
abbrev Place := List Side

def subtreeAt? : Tree → Place → Option Tree
  | t, [] => some t
  | split _ _ left _, .left :: place => left.subtreeAt? place
  | split _ _ _ right, .right :: place => right.subtreeAt? place
  | leaf _, _ :: _ => none

def places : Tree → List Place
  | leaf _ => [[]]
  | split _ _ left right =>
    [] :: (left.places.map (Side.left :: ·) ++ right.places.map (Side.right :: ·))

theorem map_subtreeAt?_places (t : Tree) : t.places.map t.subtreeAt? = t.subtrees.map some := by
  induction t with
  | leaf output => rfl
  | split feature threshold left right ihl ihr =>
    rw [places, subtrees, List.map_cons, List.map_cons, List.map_append, List.map_append, ← ihl,
      ← ihr, List.map_map, List.map_map]
    rfl

theorem mem_places_iff {place : Place} {t : Tree} :
    place ∈ t.places ↔ (t.subtreeAt? place).isSome = true := by
  induction t generalizing place with
  | leaf output =>
    cases place with
    | nil => simp [places, subtreeAt?]
    | cons side place => simp [places, subtreeAt?]
  | split feature threshold left right ihl ihr =>
    cases place with
    | nil => simp [places, subtreeAt?]
    | cons side place =>
      cases side with
      | left => simp [places, subtreeAt?, ihl]
      | right => simp [places, subtreeAt?, ihr]

theorem pairwise_places (t : Tree) : t.places.Pairwise (· < ·) := by
  induction t with
  | leaf output => exact List.pairwise_singleton _ _
  | split feature threshold left right ihl ihr =>
    have hbelow {side : Side} {place other : Place} (h : place < other) :
        side :: place < side :: other := List.cons_lt_cons_iff.2 (.inr ⟨rfl, h⟩)
    rw [places, List.pairwise_cons, List.pairwise_append, List.pairwise_map, List.pairwise_map]
    refine ⟨?_, ihl.imp hbelow, ihr.imp hbelow, ?_⟩
    · intro place hplace
      rcases List.mem_append.1 hplace with hplace | hplace
      · obtain ⟨rest, _, rfl⟩ := List.mem_map.1 hplace
        exact List.nil_lt_cons _ rest
      · obtain ⟨rest, _, rfl⟩ := List.mem_map.1 hplace
        exact List.nil_lt_cons _ rest
    · intro place hplace other hother
      obtain ⟨rest, _, rfl⟩ := List.mem_map.1 hplace
      obtain ⟨rest', _, rfl⟩ := List.mem_map.1 hother
      exact List.cons_lt_cons_iff.2 (.inl Side.left_lt_right)

theorem nodup_places (t : Tree) : t.places.Nodup := by
  apply t.pairwise_places.imp
  rintro place other hlt rfl
  exact List.lt_irrefl place hlt

/-- The tree with another subtree at a place. -/
def putAt : Tree → Place → Tree → Tree
  | _, [], new => new
  | split feature threshold left right, .left :: place, new =>
    split feature threshold (left.putAt place new) right
  | split feature threshold left right, .right :: place, new =>
    split feature threshold left (right.putAt place new)
  | leaf output, _ :: _, _ => leaf output

@[simp] theorem subtreeAt?_nil (t : Tree) : t.subtreeAt? [] = some t := by
  cases t <;> rfl

@[simp] theorem putAt_nil (t new : Tree) : t.putAt [] new = new := by
  cases t <;> rfl

variable {t s : Tree} {place : Place}

theorem at_append (h : t.subtreeAt? place = some s) (below : Place) (new : Tree) :
    t.subtreeAt? (place ++ below) = s.subtreeAt? below ∧
      t.putAt (place ++ below) new = t.putAt place (s.putAt below new) := by
  induction place generalizing t with
  | nil =>
    rw [subtreeAt?_nil, Option.some.injEq] at h
    rw [h, List.nil_append, putAt_nil]
    exact ⟨rfl, rfl⟩
  | cons side place ih =>
    cases t with
    | leaf output => cases side <;> exact nomatch h
    | split feature threshold left right =>
      cases side with
      | left =>
        obtain ⟨hfound, hput⟩ := ih h
        exact ⟨hfound, congrArg (split feature threshold · right) hput⟩
      | right =>
        obtain ⟨hfound, hput⟩ := ih h
        exact ⟨hfound, congrArg (split feature threshold left) hput⟩

theorem at_putAt (h : t.subtreeAt? place = some s) (new newer : Tree) :
    (t.putAt place new).subtreeAt? place = some new ∧
      (t.putAt place new).putAt place newer = t.putAt place newer := by
  induction place generalizing t with
  | nil => simp
  | cons side place ih =>
    cases t with
    | leaf output => cases side <;> exact nomatch h
    | split feature threshold left right =>
      cases side with
      | left =>
        obtain ⟨hfound, hput⟩ := ih h
        exact ⟨hfound, congrArg (split feature threshold · right) hput⟩
      | right =>
        obtain ⟨hfound, hput⟩ := ih h
        exact ⟨hfound, congrArg (split feature threshold left) hput⟩

end Relevance.Tree
