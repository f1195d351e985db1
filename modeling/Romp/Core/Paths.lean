import Romp.Core.Shift
import Romp.Order.ForkJoin

open ForkJoin

namespace Romp

def IsNode (s : Segment) (x : Node) : Prop :=
  s.contents = ⟨1, false, false, false, 0, 0, 0, 0, x.2, x.1, 0, 0, none⟩

/-- A label made of such segments, read as a path. -/
def Encodes (label : List Segment) (p : Path) : Prop := List.Forall₂ IsNode label p

namespace IsNode

variable {s s' : Segment} {x y : Node}

theorem getOffset (node : IsNode s x) : s.getOffset = x.1 := congrArg Contents.offset node
theorem getSpan (node : IsNode s x) : s.getSpan = x.2 := congrArg Contents.span node

theorem getType (node : IsNode s x) : s.getType = .ok .eImplicit := by
  rw [Segment.getType_contents, node]
  rfl

theorem equals_iff (node : IsNode s x) (node' : IsNode s' y) : s.equals s' = true ↔ x = y := by
  have plain : s.workShareId = none := congrArg Contents.workShareId node
  rw [Segment.equals_iff, Segment.word, Segment.word, node, node']
  simp [plain, Prod.ext_iff, and_comm]

theorem setOffsetSpan (node : IsNode s x) {offset span : Nat} (small : offset < 2 ^ 16)
    (small' : span < 2 ^ 16) : IsNode (s.setOffsetSpan offset span) (offset, span) := by
  rw [IsNode, Segment.contents_setOffsetSpan, node, Nat.mod_eq_of_lt small, Nat.mod_eq_of_lt small']

end IsNode

theorem base_isNode {offset span : Nat} (small : offset < 2 ^ 16) (small' : span < 2 ^ 16) :
    ∃ s, Segment.base .eImplicit offset span = .ok s ∧ IsNode s (offset, span) := by
  obtain ⟨s, made, contents⟩ := Segment.base_contents .eImplicit offset small'
  rw [Nat.mod_eq_of_lt small] at contents
  exact ⟨s, made, contents⟩

theorem Encodes.stretch {hist cur : List Segment} {p : Path} (left : Encodes hist p)
    (right : Encodes cur p) : SameStretch hist cur := by
  unfold Encodes at left
  induction left generalizing cur with
  | nil =>
    cases right
    exact .nil
  | cons head _ ih =>
    cases right with
    | cons head' rest => exact .cons ((head.equals_iff head').mpr rfl) (ih rest)

theorem Encodes.append {label label' : List Segment} {p q : Path} (left : Encodes label p)
    (right : Encodes label' q) : Encodes (label ++ label') (p ++ q) :=
  List.rel_append left right

theorem Encodes.split {label : List Segment} {p q : Path} (encodes : Encodes label (p ++ q)) :
    ∃ first second, label = first ++ second ∧ Encodes first p ∧ Encodes second q := by
  induction p generalizing label with
  | nil => exact ⟨[], label, rfl, .nil, encodes⟩
  | cons x p ih =>
    cases encodes with
    | cons head rest =>
      obtain ⟨first, second, rfl, left, right⟩ := ih rest
      exact ⟨_ :: first, second, rfl, .cons head left, right⟩

theorem analyzeSiblingImpTask_nodes {hist cur : List Segment} {p q : Path} (left : Encodes hist p)
    (right : Encodes cur q) (s s' : Segment) :
    analyzeSiblingImpTask (s :: hist) (s' :: cur) 0 = .ok false := by
  cases left with
  | nil => simp [analyzeSiblingImpTask]
  | cons head _ =>
    cases right with
    | nil => simp [analyzeSiblingImpTask]
    | cons head' _ =>
      simp [analyzeSiblingImpTask, getKthSegment, bind, Except.bind, head.getType, head'.getType]

/-- `happensBefore` decides the order of two paths. -/
theorem happensBefore_paths {hist cur : List Segment} {p q : Path} (left : Encodes hist p)
    (right : Encodes cur q) (decided : comparePaths p q ≠ .bad) :
    happensBefore hist cur = .ok (comparePaths p q = .before : Bool) := by
  rcases comparePaths_cases p q with ⟨r, rfl⟩ | ⟨x, r, rfl⟩ | ⟨pre, x, y, p', q', rfl, rfl, differ, verdict⟩
  · obtain ⟨first, second, rfl, start, -⟩ := right.split
    rw [comparePaths_self, happensBefore_stretch (left.stretch start)]
    rfl
  · have split := comparePaths_append q (x :: r) []
    rw [List.append_nil] at split
    rw [split] at decided
    exact absurd rfl decided
  · obtain ⟨first, second, rfl, start, rest⟩ := left.split
    obtain ⟨first', second', rfl, start', rest'⟩ := right.split
    cases rest with
    | cons node rest =>
    cases rest' with
    | cons node' rest' =>
    rename_i s _ s' _
    rw [verdict] at decided ⊢
    have unequal : s.equals s' = false := by
      rw [← Bool.not_eq_true, node.equals_iff node']
      exact differ
    rw [happensBefore_diff (start.stretch start') unequal]
    simp only [happensBeforeAt, getKthSegment, List.getElem?_cons_zero, node.getOffset, node.getSpan,
      node'.getOffset, node'.getSpan, node.getType, node'.getType, bind, Except.bind]
    cases order : compareNodes x y with
    | bad => exact absurd order decided
    | before =>
      obtain ⟨spans, residues, less⟩ := compareNodes_before.mp order
      by_cases single : y.2 = 1
      · simp [spans, single, less]
      · simp [spans, single, Nat.ne_of_lt less, less, spans ▸ residues]
    | concurrent =>
      obtain ⟨spans, residues⟩ := compareNodes_concurrent.mp order
      have apart : x.1 % y.2 ≠ y.1 % y.2 := spans ▸ residues
      have offsets : x.1 ≠ y.1 := fun same => apart (by rw [same])
      by_cases single : y.2 = 1
      · simp [single, Nat.mod_one] at apart
      · simp [spans, single, offsets, apart, analyzeSiblingImpTask_nodes rest rest']

/-- Labels that encode paths are the same only where the paths are. -/
theorem path_of_sameLabel {hist cur : List Segment} {p q : Path} (left : Encodes hist p) (right : Encodes cur q)
    (same : compareLabels hist cur = eSameLabel) : p = q := by
  have walk : ∀ i, compareFrom i hist cur = eSameLabel → p = q := by
    unfold Encodes at left
    clear same
    induction left generalizing cur q with
    | nil =>
      intro i same
      cases right with
      | nil => rfl
      | cons => cases same
    | cons head _ ih =>
      intro i same
      cases right with
      | nil => cases same
      | cons head' rest =>
        rw [compareFrom] at same
        split at same
        · rename_i equal
          rw [(head.equals_iff head').mp equal, ih rest (i + 1) same]
        · rw [eSameLabel] at same
          omega
  exact walk 0 same

end Romp
