import Mathlib.Data.List.Basic

namespace ForkJoin

/-- An offset and a span: the offset grows by the span, so its residue never changes. -/
abbrev Node := Nat × Nat

abbrev Path := List Node

inductive Verdict where
  | before | concurrent | bad
  deriving DecidableEq

def compareNodes (x y : Node) : Verdict :=
  if x.2 ≠ y.2 then .bad
  else if x.1 % x.2 = y.1 % x.2 then (if x.1 < y.1 then .before else .bad)
  else .concurrent

/-- The order of two points of a fork-join graph, read off their paths. -/
def comparePaths : Path → Path → Verdict
  | [], _ => .before
  | _ :: _, [] => .bad
  | x :: p, y :: q => if x = y then comparePaths p q else compareNodes x y

@[simp] theorem comparePaths_nil (q : Path) : comparePaths [] q = .before := by cases q <;> rfl

theorem comparePaths_append (pre p q : Path) : comparePaths (pre ++ p) (pre ++ q) = comparePaths p q := by
  induction pre with
  | nil => rfl
  | cons x pre ih => simp [comparePaths, ih]

theorem comparePaths_self (p q : Path) : comparePaths p (p ++ q) = .before := by
  have split := comparePaths_append p [] q
  rwa [List.append_nil, comparePaths_nil] at split

theorem compareNodes_concurrent {x y : Node} :
    compareNodes x y = .concurrent ↔ x.2 = y.2 ∧ x.1 % x.2 ≠ y.1 % y.2 := by
  by_cases spans : x.2 = y.2
  · by_cases residues : x.1 % y.2 = y.1 % y.2
    · by_cases less : x.1 < y.1 <;> simp [compareNodes, spans, residues, less]
    · simp [compareNodes, spans, residues]
  · simp [compareNodes, spans]

theorem compareNodes_before {x y : Node} :
    compareNodes x y = .before ↔ x.2 = y.2 ∧ x.1 % x.2 = y.1 % y.2 ∧ x.1 < y.1 := by
  by_cases spans : x.2 = y.2
  · by_cases residues : x.1 % y.2 = y.1 % y.2
    · by_cases less : x.1 < y.1 <;> simp [compareNodes, spans, residues, less]
    · simp [compareNodes, spans, residues]
  · simp [compareNodes, spans]

theorem compareNodes_symm {x y : Node} (apart : compareNodes x y = .concurrent) :
    compareNodes y x = .concurrent := by
  rw [compareNodes_concurrent] at apart ⊢
  exact ⟨apart.1.symm, Ne.symm apart.2⟩

theorem compareNodes_ne {x y : Node} (apart : compareNodes x y = .concurrent) : x ≠ y := by
  rintro rfl
  exact (compareNodes_concurrent.mp apart).2 rfl

theorem comparePaths_symm {p q : Path} (apart : comparePaths p q = .concurrent) : comparePaths q p = .concurrent := by
  induction p generalizing q with
  | nil => simp at apart
  | cons x p ih =>
    cases q with
    | nil => simp [comparePaths] at apart
    | cons y q =>
      by_cases same : x = y
      · simp only [comparePaths, same, if_true] at apart ⊢
        exact ih apart
      · simp only [comparePaths, same, Ne.symm same, if_false] at apart ⊢
        exact compareNodes_symm apart

/-- A decided verdict does not change when the second path grows. -/
theorem comparePaths_extend {p q : Path} (decided : comparePaths p q ≠ .bad) (r : Path) :
    comparePaths p (q ++ r) = comparePaths p q := by
  induction p generalizing q with
  | nil => simp
  | cons x p ih =>
    cases q with
    | nil => simp [comparePaths] at decided
    | cons y q =>
      by_cases same : x = y
      · simp only [comparePaths, same, if_true, List.cons_append] at decided ⊢
        exact ih decided
      · simp only [comparePaths, same, if_false, List.cons_append]

theorem concurrent_extend {p q : Path} (apart : comparePaths p q = .concurrent) (r : Path) :
    comparePaths p (q ++ r) = .concurrent := by
  rw [comparePaths_extend (by rw [apart]; decide), apart]

theorem concurrent_not_prefix {p q r : Path} (apart : comparePaths p (q ++ r) = .concurrent)
    (short : comparePaths p q = .concurrent) : ¬ q <+: p := by
  rintro ⟨rest, rfl⟩
  rw [show q = q ++ [] by simp, List.append_assoc, comparePaths_append] at short
  cases rest <;> simp [comparePaths] at short

theorem comparePaths_shorten {p q r : Path} (decided : comparePaths p (q ++ r) ≠ .bad) (above : ¬ q <+: p) :
    comparePaths p q = comparePaths p (q ++ r) := by
  induction p generalizing q with
  | nil => simp
  | cons x p ih =>
    cases q with
    | nil => exact absurd List.nil_prefix above
    | cons y q =>
      by_cases same : x = y
      · subst same
        simp only [comparePaths, if_true, List.cons_append, List.cons_prefix_cons, true_and] at decided above ⊢
        exact ih decided above
      · simp only [comparePaths, same, if_false, List.cons_append]

theorem comparePaths_cases (p q : Path) : (∃ r, q = p ++ r) ∨ (∃ x r, p = q ++ x :: r) ∨
    ∃ pre x y p' q', p = pre ++ x :: p' ∧ q = pre ++ y :: q' ∧ x ≠ y ∧ comparePaths p q = compareNodes x y := by
  induction p generalizing q with
  | nil => exact .inl ⟨q, rfl⟩
  | cons x p ih =>
    cases q with
    | nil => exact .inr (.inl ⟨x, p, rfl⟩)
    | cons y q =>
      by_cases same : x = y
      · subst same
        rcases ih q with ⟨r, rfl⟩ | ⟨z, r, rfl⟩ | ⟨pre, u, v, p', q', rfl, rfl, differ, verdict⟩
        · exact .inl ⟨r, rfl⟩
        · exact .inr (.inl ⟨z, r, rfl⟩)
        · exact .inr (.inr ⟨x :: pre, u, v, p', q', rfl, rfl, differ, by simpa [comparePaths] using verdict⟩)
      · exact .inr (.inr ⟨[], x, y, p, q, rfl, rfl, same, by simp [comparePaths, same]⟩)

theorem comparePaths_trans {p q r : Path} (first : comparePaths p q = .before) (second : comparePaths q r = .before) :
    comparePaths p r = .before := by
  induction p generalizing q r with
  | nil => simp
  | cons x p ih =>
    cases q with
    | nil => cases first
    | cons y q =>
      cases r with
      | nil => cases second
      | cons z r =>
        simp only [comparePaths] at first second ⊢
        by_cases same : x = y
        · by_cases same' : y = z
          · rw [if_pos same] at first
            rw [if_pos same'] at second
            rw [if_pos (same.trans same')]
            exact ih first second
          · rw [if_neg same'] at second
            rw [same, if_neg same', second]
        · rw [if_neg same] at first
          obtain ⟨span, residue, less⟩ := compareNodes_before.mp first
          by_cases same' : y = z
          · rwa [← same', if_neg same]
          · rw [if_neg same'] at second
            obtain ⟨span', residue', less'⟩ := compareNodes_before.mp second
            rw [if_neg (by rintro rfl; omega)]
            exact compareNodes_before.mpr ⟨span.trans span', residue.trans residue', by omega⟩

def bump : Path → Path
  | [] => []
  | [x] => [(x.1 + x.2, x.2)]
  | x :: y :: p => x :: bump (y :: p)

theorem bump_snoc (p : Path) (x : Node) : bump (p ++ [x]) = p ++ [(x.1 + x.2, x.2)] := by
  induction p with
  | nil => rfl
  | cons y p ih =>
    cases p with
    | nil => rfl
    | cons z p => simpa [bump] using ih

theorem bump_ne_nil {q : Path} (start : q ≠ []) : bump q ≠ [] := by
  match q, start with
  | [x], _ => simp [bump]
  | x :: y :: q, _ => simp [bump]

theorem bump_span {q : Path} {x : Node} (member : x ∈ bump q) : ∃ y ∈ q, y.2 = x.2 := by
  match q with
  | [] => cases member
  | [y] =>
    rw [bump, List.mem_singleton] at member
    exact ⟨y, List.mem_singleton_self y, by rw [member]⟩
  | y :: z :: q =>
    rcases List.mem_cons.mp member with rfl | rest
    · exact ⟨x, List.mem_cons_self, rfl⟩
    · obtain ⟨w, inside, same⟩ := bump_span rest
      exact ⟨w, List.mem_cons_of_mem _ inside, same⟩

theorem concurrent_bump {p q : Path} (apart : comparePaths p q = .concurrent) :
    comparePaths p (bump q) = .concurrent := by
  induction p generalizing q with
  | nil => simp at apart
  | cons x p ih =>
    cases q with
    | nil => simp [comparePaths] at apart
    | cons y q =>
      cases q with
      | nil =>
        by_cases same : x = y
        · cases p <;> simp [comparePaths, same] at apart
        · simp only [comparePaths, same, if_false] at apart
          have moved : compareNodes x (y.1 + y.2, y.2) = .concurrent := by
            rw [compareNodes_concurrent] at apart ⊢
            simpa using apart
          simp only [bump, comparePaths, compareNodes_ne moved, if_false, moved]
      | cons z q =>
        by_cases same : x = y
        · simp only [bump, comparePaths, same, if_true] at apart ⊢
          exact ih apart
        · simp only [bump, comparePaths, same, if_false] at apart ⊢
          exact apart

section Team

variable {n : Nat} {o : Nat → Nat}

theorem same_member (size : 0 < n) (residue : ∀ i < n, o i % n = i) {x : Node} (span : x.2 = n) :
    x.1 % n < n ∧ compareNodes x (o (x.1 % n), n) ≠ .concurrent := by
  have bound := Nat.mod_lt x.1 size
  refine ⟨bound, fun apart => ?_⟩
  have differ := (compareNodes_concurrent.mp apart).2
  rw [span] at differ
  exact differ (residue _ bound).symm

/-- What is concurrent with every member of a team is concurrent with the task that forked it. -/
theorem concurrent_base (size : 0 < n) (residue : ∀ i < n, o i % n = i) {p q : Path}
    (apart : ∀ i < n, comparePaths p (q ++ [(o i, n)]) = .concurrent) : comparePaths p q = .concurrent := by
  induction p generalizing q with
  | nil => simpa using apart 0 size
  | cons x p ih =>
    cases q with
    | nil =>
      simp only [List.nil_append, comparePaths] at apart
      have first := apart 0 size
      have span : x.2 = n := by
        split at first
        · rename_i same
          rw [same]
        · exact (compareNodes_concurrent.mp first).1
      obtain ⟨bound, never⟩ := same_member size residue span
      have own := apart _ bound
      split at own
      · cases p <;> simp [comparePaths] at own
      · exact absurd own never
    | cons y q =>
      by_cases same : x = y
      · simp only [List.cons_append, comparePaths, same, if_true] at apart ⊢
        exact ih apart
      · simp only [List.cons_append, comparePaths, same, if_false] at apart ⊢
        exact apart 0 size

theorem before_bump (size : 0 < n) (residue : ∀ i < n, o i % n = i) {p q : Path} (start : q ≠ [])
    (spans : ∀ x ∈ q, 0 < x.2) (decided : ∀ i < n, comparePaths p (q ++ [(o i, n)]) ≠ .bad) :
    comparePaths p (bump q) ≠ .bad ∧ ¬ bump q <+: p ∧
      (comparePaths p (bump q) = .before ↔ ∃ i < n, comparePaths p (q ++ [(o i, n)]) = .before) := by
  induction p generalizing q with
  | nil =>
    refine ⟨by simp, fun inside => ?_, by simpa using ⟨0, size⟩⟩
    rw [List.prefix_nil] at inside
    match q, start with
    | [x], _ => simp [bump] at inside
    | x :: y :: q, _ => simp [bump] at inside
  | cons x p ih =>
    match q, start with
    | [y], _ =>
      have positive : 0 < y.2 := spans y List.mem_cons_self
      simp only [List.cons_append, List.nil_append, comparePaths] at decided
      by_cases same : x = y
      · subst same
        have moved : x ≠ (x.1 + x.2, x.2) := fun h => by have := congrArg Prod.fst h; simp at this; omega
        have before : compareNodes x (x.1 + x.2, x.2) = .before := by
          rw [compareNodes_before]
          simpa using positive
        simp only [if_true] at decided
        simp only [bump, comparePaths, moved, if_false, before, List.cons_append, List.nil_append, if_true,
          List.cons_prefix_cons, Ne.symm moved, false_and, not_false_eq_true, true_iff, reduceCtorEq,
          ne_eq, true_and]
        cases p with
        | nil => exact ⟨0, size, by simp⟩
        | cons z p =>
          have span : z.2 = n := by
            have first := decided 0 size
            simp only [comparePaths] at first
            split at first
            · rename_i same
              rw [same]
            · by_contra other
              exact first (by simp [compareNodes, other])
          obtain ⟨bound, never⟩ := same_member size residue span
          have own := decided _ bound
          refine ⟨_, bound, ?_⟩
          simp only [comparePaths] at own ⊢
          split at own
          · rename_i equal
            rw [if_pos equal]
            cases p with
            | nil => simp
            | cons w p => simp [comparePaths] at own
          · rename_i unequal
            rw [if_neg unequal]
            cases verdict : compareNodes z (o (z.1 % n), n) with
            | before => rfl
            | concurrent => exact absurd verdict never
            | bad => exact absurd verdict own
      · simp only [same, if_false] at decided
        have known := decided 0 size
        have moved : x ≠ (y.1 + y.2, y.2) ∧ compareNodes x (y.1 + y.2, y.2) = compareNodes x y := by
          cases verdict : compareNodes x y with
          | before =>
            rw [compareNodes_before] at verdict
            refine ⟨fun h => ?_, compareNodes_before.mpr (by simpa using ⟨verdict.1, verdict.2.1, by omega⟩)⟩
            have := congrArg Prod.fst h
            simp only at this
            omega
          | concurrent =>
            have apart : compareNodes x (y.1 + y.2, y.2) = .concurrent := by
              rw [compareNodes_concurrent] at verdict ⊢
              simpa using verdict
            exact ⟨compareNodes_ne apart, apart⟩
          | bad => exact absurd verdict known
        simp only [bump, comparePaths, moved.1, moved.2, if_false, List.cons_append, List.nil_append, same,
          List.cons_prefix_cons, Ne.symm moved.1, false_and, not_false_eq_true, true_and]
        exact ⟨known, ⟨fun h => ⟨0, size, h⟩, fun ⟨_, _, h⟩ => h⟩⟩
    | y :: z :: q, _ =>
      by_cases same : x = y
      · subst same
        simp only [bump, comparePaths, if_true, List.cons_append, List.cons_prefix_cons, true_and] at decided ⊢
        exact ih (by simp) (fun w member => spans w (List.mem_cons_of_mem _ member)) decided
      · simp only [bump, comparePaths, same, if_false, List.cons_append, List.cons_prefix_cons,
          Ne.symm same, false_and, not_false_eq_true, true_and] at decided ⊢
        exact ⟨decided 0 size, ⟨fun h => ⟨0, size, h⟩, fun ⟨_, _, h⟩ => h⟩⟩

end Team

variable {α β : Type*}

/-- The active tasks of a fork-join program have paths that tell exactly what each one knows of
    the accesses seen so far: `W` is the path that the task of an access had at the access. -/
structure Exact (active : α → Prop) (V : α → Path) (seen : β → Prop) (W : β → Path)
    (K : α → β → Prop) : Prop where
  apart : ∀ u v, active u → active v → u ≠ v → comparePaths (V u) (V v) = .concurrent
  decided : ∀ a u, seen a → active u → comparePaths (W a) (V u) ≠ .bad
  exact : ∀ a u, seen a → active u → (K u a ↔ comparePaths (W a) (V u) = .before)

def Sealed (seen : β → Prop) (W : β → Path) (q : Path) : Prop := ∀ a, seen a → ¬ q <+: W a

structure Team (active : α → Prop) (V : α → Path) (q : Path) (n : Nat) (m : Nat → α) (o : Nat → Nat) :
    Prop where
  size : 0 < n
  residue : ∀ i < n, o i % n = i
  active : ∀ i < n, active (m i)
  path : ∀ i < n, V (m i) = q ++ [(o i, n)]

section Steps

variable {active active' : α → Prop} {V V' : α → Path} {seen seen' : β → Prop} {W W' : β → Path}
  {K K' : α → β → Prop}

theorem Exact.touch (exact : Exact active V seen W K) {u : α} {b : β} (now : active u) (fresh : ¬ seen b)
    (grows : ∀ a, seen' a ↔ seen a ∨ a = b) (same : ∀ a, seen a → W' a = W a) (here : W' b = V u)
    (known : ∀ a, seen a → ∀ v, K' v a ↔ K v a) (learns : ∀ v, active v → (K' v b ↔ v = u)) :
    Exact active V seen' W' K' := by
  refine ⟨exact.apart, ?_, ?_⟩
  · intro a v member isActive
    rcases (grows a).mp member with old | rfl
    · rw [same a old]
      exact exact.decided a v old isActive
    · rw [here]
      by_cases self : v = u
      · subst self
        have verdict := comparePaths_self (V v) []
        rw [List.append_nil] at verdict
        rw [verdict]
        decide
      · rw [exact.apart u v now isActive (Ne.symm self)]
        decide
  · intro a v member isActive
    rcases (grows a).mp member with old | rfl
    · rw [same a old, known a old v]
      exact exact.exact a v old isActive
    · rw [here, learns v isActive]
      by_cases self : v = u
      · subst self
        have verdict := comparePaths_self (V v) []
        rw [List.append_nil] at verdict
        simp [verdict]
      · rw [exact.apart u v now isActive (Ne.symm self)]
        simp [self]

theorem Exact.fork (exact : Exact active V seen W K) {u : α} {n : Nat} {m : Nat → α} (now : active u)
    (actives : ∀ v, active' v → (∃ i < n, v = m i) ∨ (active v ∧ v ≠ u ∧ V' v = V v ∧ K' v = K v))
    (paths : ∀ i < n, V' (m i) = V u ++ [(i, n)] ∧ K' (m i) = K u) : Exact active' V' seen W K' := by
  have compares : ∀ a i, seen a → i < n → comparePaths (W a) (V' (m i)) = comparePaths (W a) (V u) := by
    intro a i member bound
    rw [(paths i bound).1]
    exact comparePaths_extend (exact.decided a u member now) _
  refine ⟨?_, ?_, ?_⟩
  · intro v w isActive isActive' other
    rcases actives v isActive with ⟨i, bound, rfl⟩ | ⟨old, notU, sameV, -⟩
    · rcases actives w isActive' with ⟨j, bound', rfl⟩ | ⟨old', notU', sameV', -⟩
      · rw [(paths i bound).1, (paths j bound').1, comparePaths_append]
        have differ : i ≠ j := fun h => other (by rw [h])
        have nodes : ((i, n) : Node) ≠ (j, n) := by simpa using differ
        simp only [comparePaths, nodes, if_false]
        rw [compareNodes_concurrent]
        simpa [Nat.mod_eq_of_lt bound, Nat.mod_eq_of_lt bound'] using differ
      · rw [(paths i bound).1, sameV']
        exact comparePaths_symm (concurrent_extend (exact.apart w u old' now notU') _)
    · rcases actives w isActive' with ⟨j, bound', rfl⟩ | ⟨old', notU', sameV', -⟩
      · rw [(paths j bound').1, sameV]
        exact concurrent_extend (exact.apart v u old now notU) _
      · rw [sameV, sameV']
        exact exact.apart v w old old' other
  · intro a v member isActive
    rcases actives v isActive with ⟨i, bound, rfl⟩ | ⟨old, -, sameV, -⟩
    · rw [compares a i member bound]
      exact exact.decided a u member now
    · rw [sameV]
      exact exact.decided a v member old
  · intro a v member isActive
    rcases actives v isActive with ⟨i, bound, rfl⟩ | ⟨old, -, sameV, sameK⟩
    · rw [compares a i member bound, (paths i bound).2]
      exact exact.exact a u member now
    · rw [sameV, sameK]
      exact exact.exact a v member old

section Barrier

variable {q : Path} {n : Nat} {m : Nat → α} {o : Nat → Nat}

theorem Exact.team_decided (exact : Exact active V seen W K) (team : Team active V q n m o) {a : β}
    (member : seen a) : ∀ i < n, comparePaths (W a) (q ++ [(o i, n)]) ≠ .bad := by
  intro i bound
  rw [← team.path i bound]
  exact exact.decided a (m i) member (team.active i bound)

theorem Exact.team_apart (exact : Exact active V seen W K) (team : Team active V q n m o) {v : α}
    (now : active v) (outside : ∀ i < n, v ≠ m i) : comparePaths (V v) q = .concurrent := by
  refine concurrent_base team.size team.residue fun i bound => ?_
  rw [← team.path i bound]
  exact exact.apart v (m i) now (team.active i bound) (outside i bound)

theorem Exact.team_knows (exact : Exact active V seen W K) (team : Team active V q n m o)
    (start : q ≠ []) (spans : ∀ x ∈ q, 0 < x.2) {a : β} (member : seen a) :
    (∃ i < n, K (m i) a) ↔ comparePaths (W a) (bump q) = .before := by
  rw [(before_bump team.size team.residue start spans (exact.team_decided team member)).2.2]
  constructor
  · rintro ⟨i, bound, knows⟩
    refine ⟨i, bound, ?_⟩
    rw [← team.path i bound]
    exact (exact.exact a (m i) member (team.active i bound)).mp knows
  · rintro ⟨i, bound, before⟩
    rw [← team.path i bound] at before
    exact ⟨i, bound, (exact.exact a (m i) member (team.active i bound)).mpr before⟩

theorem Exact.sealed (exact : Exact active V seen W K) (team : Team active V q n m o)
    (start : q ≠ []) (spans : ∀ x ∈ q, 0 < x.2) : Sealed seen W (bump q) := fun _ member =>
  (before_bump team.size team.residue start spans (exact.team_decided team member)).2.1

/-- The release of a barrier: the paths of the members move on, and they share what they know. -/
theorem Exact.release (exact : Exact active V seen W K) (team : Team active V q n m o)
    (start : q ≠ []) (spans : ∀ x ∈ q, 0 < x.2)
    (paths : ∀ i < n, V' (m i) = bump q ++ [(o i, n)])
    (shared : ∀ i < n, ∀ a, K' (m i) a ↔ ∃ j < n, K (m j) a)
    (others : ∀ v, active v →
      (∃ i < n, v = m i) ∨ ((∀ i < n, v ≠ m i) ∧ V' v = V v ∧ K' v = K v)) :
    Exact active V' seen W K' := by
  have compares : ∀ a i, seen a → i < n → comparePaths (W a) (V' (m i)) = comparePaths (W a) (bump q) := by
    intro a i member bound
    rw [paths i bound]
    exact comparePaths_extend
      (before_bump team.size team.residue start spans (exact.team_decided team member)).1 _
  refine ⟨?_, ?_, ?_⟩
  · intro v w isActive isActive' other
    rcases others v isActive with ⟨i, bound, rfl⟩ | ⟨outside, sameV, -⟩
    · rcases others w isActive' with ⟨j, bound', rfl⟩ | ⟨outside', sameV', -⟩
      · have before := exact.apart _ _ isActive isActive' other
        rw [team.path i bound, team.path j bound', comparePaths_append] at before
        rw [paths i bound, paths j bound', comparePaths_append, before]
      · rw [paths i bound, sameV']
        exact comparePaths_symm (concurrent_extend
          (concurrent_bump (exact.team_apart team isActive' outside')) _)
    · rcases others w isActive' with ⟨j, bound', rfl⟩ | ⟨outside', sameV', -⟩
      · rw [paths j bound', sameV]
        exact concurrent_extend (concurrent_bump (exact.team_apart team isActive outside)) _
      · rw [sameV, sameV']
        exact exact.apart v w isActive isActive' other
  · intro a v member isActive
    rcases others v isActive with ⟨i, bound, rfl⟩ | ⟨-, sameV, -⟩
    · rw [compares a i member bound]
      exact (before_bump team.size team.residue start spans (exact.team_decided team member)).1
    · rw [sameV]
      exact exact.decided a v member isActive
  · intro a v member isActive
    rcases others v isActive with ⟨i, bound, rfl⟩ | ⟨-, sameV, sameK⟩
    · rw [compares a i member bound, shared i bound a]
      exact exact.team_knows team start spans member
    · rw [sameV, sameK]
      exact exact.exact a v member isActive

theorem Sealed.touch (sealed : Sealed seen W q) (exact : Exact active V seen W K)
    (team : Team active V q n m o) {u : α} {b : β} (now : active u) (outside : ∀ i < n, u ≠ m i)
    (grows : ∀ a, seen' a ↔ seen a ∨ a = b) (same : ∀ a, seen a → W' a = W a) (here : W' b = V u) :
    Sealed seen' W' q := by
  intro a member
  rcases (grows a).mp member with old | rfl
  · rw [same a old]
    exact sealed a old
  · rw [here]
    have bound := team.size
    refine concurrent_not_prefix (r := [(o 0, n)]) ?_ (exact.team_apart team now outside)
    rw [← team.path 0 bound]
    exact exact.apart u (m 0) now (team.active 0 bound) (outside 0 bound)

/-- The end of a region: the task that forked it goes on, past all its barriers. -/
theorem Exact.join (exact : Exact active V seen W K) (team : Team active V q n m o)
    (sealed : Sealed seen W q) {u : α} (path : V' u = q) (knows : ∀ a, K' u a ↔ ∃ i < n, K (m i) a)
    (actives : ∀ v, active' v → v = u ∨ (active v ∧ (∀ i < n, v ≠ m i) ∧ V' v = V v ∧ K' v = K v)) :
    Exact active' V' seen W K' := by
  -- An access that a member's path decides is decided by the shorter path too: it is not below it.
  have compares : ∀ a i, seen a → i < n → comparePaths (W a) q = comparePaths (W a) (V (m i)) := by
    intro a i member bound
    have decided := exact.decided a (m i) member (team.active i bound)
    rw [team.path i bound] at decided ⊢
    exact comparePaths_shorten decided (sealed a member)
  refine ⟨?_, ?_, ?_⟩
  · intro v w isActive isActive' other
    rcases actives v isActive with rfl | ⟨old, outside, sameV, -⟩
    · rcases actives w isActive' with rfl | ⟨old', outside', sameV', -⟩
      · exact absurd rfl other
      · rw [path, sameV']
        exact comparePaths_symm (exact.team_apart team old' outside')
    · rcases actives w isActive' with rfl | ⟨old', outside', sameV', -⟩
      · rw [path, sameV]
        exact exact.team_apart team old outside
      · rw [sameV, sameV']
        exact exact.apart v w old old' other
  · intro a v member isActive
    rcases actives v isActive with rfl | ⟨old, -, sameV, -⟩
    · rw [path, compares a 0 member team.size]
      exact exact.decided a (m 0) member (team.active 0 team.size)
    · rw [sameV]
      exact exact.decided a v member old
  · intro a v member isActive
    rcases actives v isActive with rfl | ⟨old, -, sameV, sameK⟩
    · rw [path, knows a]
      constructor
      · rintro ⟨i, bound, known⟩
        rw [compares a i member bound]
        exact (exact.exact a (m i) member (team.active i bound)).mp known
      · intro before
        rw [compares a 0 member team.size] at before
        exact ⟨0, team.size, (exact.exact a (m 0) member (team.active 0 team.size)).mpr before⟩
    · rw [sameV, sameK]
      exact exact.exact a v member old

end Barrier

end Steps

end ForkJoin
