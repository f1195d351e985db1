import Mathlib.Algebra.Order.BigOperators.Group.List
import Mathlib.Algebra.Order.Ring.Nat
import Mathlib.Logic.Relation

namespace Graph

variable {α : Type}

/-- Depth-first search with an explicit stack. A node is marked when it is popped, so the stack
    may hold it several times. `none` means that the fuel ran out with work left. -/
def search [DecidableEq α] (succ : α → List α) (target : α) : Nat → List α → List α → Option Bool
  | _, [], _ => some false
  | 0, _ :: _, _ => none
  | fuel + 1, cur :: todo, visited =>
    if cur = target then some true
    else if cur ∈ visited then search succ target fuel todo visited
    else search succ target fuel
      (((succ cur).filter fun next => next ∉ cur :: visited).reverse ++ todo) (cur :: visited)

def Reaches (succ : α → List α) : α → α → Prop := Relation.ReflTransGen fun a b => b ∈ succ a

/-- The marked nodes miss the target, and every edge out of them ends in a marked or stacked node. -/
def Frontier (succ : α → List α) (target : α) (todo visited : List α) : Prop :=
  ∀ v ∈ visited, v ≠ target ∧ ∀ w ∈ succ v, w ∈ visited ∨ w ∈ todo

theorem Frontier.escape {succ : α → List α} {target : α} {todo visited : List α}
    (frontier : Frontier succ target todo visited) {v : α} (path : Reaches succ v target)
    (marked : v ∈ visited) : ∃ w ∈ todo, Reaches succ w target := by
  induction path using Relation.ReflTransGen.head_induction_on with
  | refl => exact absurd rfl (frontier _ marked).1
  | head edge rest ih =>
    rcases (frontier _ marked).2 _ edge with next | next
    · exact ih next
    · exact ⟨_, next, rest⟩

theorem Frontier.drop {succ : α → List α} {target cur : α} {todo visited : List α}
    (frontier : Frontier succ target (cur :: todo) visited) (marked : cur ∈ visited) :
    Frontier succ target todo visited := by
  intro v member
  refine ⟨(frontier v member).1, fun w edge => ?_⟩
  rcases (frontier v member).2 w edge with next | next
  · exact .inl next
  · rcases List.mem_cons.mp next with rfl | next
    · exact .inl marked
    · exact .inr next

theorem Frontier.expand [DecidableEq α] {succ : α → List α} {target cur : α} {todo visited : List α}
    (frontier : Frontier succ target (cur :: todo) visited) (other : cur ≠ target) :
    Frontier succ target (((succ cur).filter fun next => next ∉ cur :: visited).reverse ++ todo)
      (cur :: visited) := by
  intro v member
  rcases List.mem_cons.mp member with rfl | member
  · refine ⟨other, fun w edge => ?_⟩
    by_cases marked : w ∈ v :: visited
    · exact .inl marked
    · exact .inr (List.mem_append_left _ (by simpa [edge] using marked))
  · refine ⟨(frontier v member).1, fun w edge => ?_⟩
    rcases (frontier v member).2 w edge with next | next
    · exact .inl (List.mem_cons_of_mem _ next)
    · rcases List.mem_cons.mp next with rfl | next
      · exact .inl List.mem_cons_self
      · exact .inr (List.mem_append_right _ next)

/-- An answer of the search is right: some stacked node reaches the target or none does. -/
theorem search_correct [DecidableEq α] {succ : α → List α} {target : α} {fuel : Nat} {todo visited : List α}
    {answer : Bool} (frontier : Frontier succ target todo visited)
    (found : search succ target fuel todo visited = some answer) :
    answer = true ↔ ∃ v ∈ todo, Reaches succ v target := by
  induction fuel, todo, visited using search.induct succ target with
  | case1 fuel visited =>
    simp only [search, Option.some.injEq] at found
    simp [← found]
  | case2 cur todo visited => simp [search] at found
  | case3 fuel todo visited =>
    simp only [search, if_true, Option.some.injEq] at found
    simp only [← found, true_iff]
    exact ⟨target, List.mem_cons_self, .refl⟩
  | case4 fuel cur todo visited other marked ih =>
    simp only [search, other, marked, if_true, if_false] at found
    rw [ih (frontier.drop marked) found]
    constructor
    · rintro ⟨v, member, path⟩
      exact ⟨v, List.mem_cons_of_mem _ member, path⟩
    · rintro ⟨v, member, path⟩
      rcases List.mem_cons.mp member with rfl | member
      · exact (frontier.drop marked).escape path marked
      · exact ⟨v, member, path⟩
  | case5 fuel cur todo visited other fresh ih =>
    simp only [search, other, fresh, if_false] at found
    have expanded := frontier.expand other
    rw [ih expanded found]
    constructor
    · rintro ⟨v, member, path⟩
      rcases List.mem_append.mp member with member | member
      · have edge : v ∈ succ cur := List.mem_of_mem_filter (List.mem_reverse.mp member)
        exact ⟨cur, List.mem_cons_self, .head edge path⟩
      · exact ⟨v, List.mem_cons_of_mem _ member, path⟩
    · rintro ⟨v, member, path⟩
      rcases List.mem_cons.mp member with rfl | member
      · exact expanded.escape path List.mem_cons_self
      · exact ⟨v, List.mem_append_right _ member, path⟩

def pending [DecidableEq α] (succ : α → List α) (nodes visited : List α) : Nat :=
  ((nodes.filter fun v => v ∉ visited).map fun v => (succ v).length).sum

theorem pending_mark [DecidableEq α] {succ : α → List α} {nodes visited : List α} {cur : α}
    (known : ∀ v, v ∉ nodes → succ v = []) (fresh : cur ∉ visited) :
    pending succ nodes (cur :: visited) + (succ cur).length ≤ pending succ nodes visited := by
  by_cases member : cur ∈ nodes
  · clear known
    induction nodes with
    | nil => simp at member
    | cons node nodes ih =>
      by_cases same : node = cur
      · subst same
        have shrink : pending succ nodes (node :: visited) ≤ pending succ nodes visited := by
          apply List.Sublist.sum_le_sum
          · apply List.Sublist.map
            exact List.monotone_filter_right _ (by simp)
          · simp
        have step : pending succ (node :: nodes) (node :: visited) =
            pending succ nodes (node :: visited) := by simp [pending]
        have whole : pending succ (node :: nodes) visited =
            (succ node).length + pending succ nodes visited := by simp [pending, fresh]
        omega
      · have rest := ih (by simpa [Ne.symm same] using member)
        by_cases marked : node ∈ visited
        · simpa [pending, marked, same] using rest
        · simp only [pending, List.mem_cons, same, marked, or_self, not_false_eq_true, decide_true,
            List.filter_cons_of_pos, List.map_cons, List.sum_cons] at rest ⊢
          omega
  · have noEdges := known cur member
    have same : pending succ nodes (cur :: visited) = pending succ nodes visited := by
      unfold pending
      congr 2
      apply List.filter_congr
      intro v inNodes
      have other : v ≠ cur := fun h => member (h ▸ inNodes)
      simp [other]
    rw [same, noEdges]
    exact Nat.le_refl _

/-- Every pop uses up a stack entry or the out-degree of a newly marked node. -/
theorem search_terminates [DecidableEq α] {succ : α → List α} (target : α) {nodes : List α}
    (known : ∀ v, v ∉ nodes → succ v = []) {fuel : Nat} {todo visited : List α}
    (enough : todo.length + pending succ nodes visited ≤ fuel) :
    ∃ answer, search succ target fuel todo visited = some answer := by
  induction fuel, todo, visited using search.induct succ target with
  | case1 fuel visited => exact ⟨false, by simp [search]⟩
  | case2 cur todo visited => simp at enough
  | case3 fuel todo visited => exact ⟨true, by simp [search]⟩
  | case4 fuel cur todo visited other marked ih =>
    simp only [search, other, marked, if_true, if_false]
    apply ih
    simp only [List.length_cons] at enough
    omega
  | case5 fuel cur todo visited other fresh ih =>
    simp only [search, other, fresh, if_false]
    apply ih
    have step := pending_mark known fresh
    have pushed : ((succ cur).filter fun next => next ∉ cur :: visited).length ≤ (succ cur).length :=
      List.length_filter_le _ _
    simp only [List.length_append, List.length_reverse, List.length_cons] at enough ⊢
    omega

end Graph
