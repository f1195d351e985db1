import Mathlib.Data.List.Chain
import Romp.Runtime.Closing
import Romp.Runtime.Turns

namespace Romp

namespace Contents

theorem bump_zero {z : Contents} (small : z.offset < 2 ^ 16) : z.bump 0 = z := by
  rw [bump, Nat.zero_mul, Nat.add_zero, Nat.mod_eq_of_lt small]

theorem bump_bump (z : Contents) (k : Nat) : (z.bump k).bump 1 = z.bump (k + 1) := by
  simp only [bump, Nat.one_mul, Nat.mod_add_mod, Contents.mk.injEq, true_and, and_true]
  rw [Nat.add_mul, Nat.one_mul, Nat.add_assoc]

end Contents

namespace Event

variable (e : Event) (z : Contents)

@[simp] theorem count_type : (e.count z).type = z.type := by cases e <;> rfl
@[simp] theorem count_marker : (e.count z).marker = z.marker := by cases e <;> rfl
@[simp] theorem count_span : (e.count z).span = z.span := by cases e <;> rfl
@[simp] theorem count_offset : (e.count z).offset = z.offset := by cases e <;> rfl
@[simp] theorem count_workShareId : (e.count z).workShareId = z.workShareId := by cases e <;> rfl

theorem count_taskcreate : z.taskcreate ≤ (e.count z).taskcreate := by
  cases e with
  | taskCreate => exact Nat.le_succ _
  | _ => exact le_refl _

end Event

namespace Runtime

variable (R : Runtime)

def Past (t : Nat) (c : Construct) : Prop :=
  ∃ k, c.number = some k ∧ k < (R.task t).works ∧ ∀ c' ∈ (R.task t).units, c'.number = some k → c.rank ≤ c'.rank

def Suits (strand : Strand) (z : Contents) : Prop :=
  match strand.body with
  | some _ => z.IsUnit
  | none =>
    match (R.task strand.task).kind with
    | .initial => z.type = 1 ∧ z.span = 1
    | .implicit r _ => z.type = 1 ∧ z.span = (R.region r).size
    | .explicit => z.type = 2 ∧ z.span = 1

/-- The record of a segment, with the strand of the one that follows it in a label. Above a unit, or a member of a region,
    comes the segment that was there when the unit or the region began: `below` and `fork` say what it was like. -/
def Above (fork : Nat → Contents) (below : Strand → Contents) (bound : Nat → Nat → Prop) (z : Contents) (strand : Strand) :
    Prop :=
  match strand.body with
  | some _ => z = below strand
  | none => ∀ r i, (R.task strand.task).kind = .implicit r i → ∃ k, bound strand.task k ∧ z = (fork r).bump k

def tick (d : Detector) (c : Nat) : Nat := ((R.birth d c).getLast?.map fun r => (d.plain r).taskcreate).getD 0

end Runtime

theorem Task.strands_self {t : Task} {number : Nat} {above : List Strand} {strand : Strand}
    (strands : t.strands number = above ++ [strand]) : strand.task = number := by
  unfold Task.strands at strands
  cases body : t.body with
  | none =>
    rw [body] at strands
    exact (congrArg Strand.task (List.singleton_inj.mp (List.append_inj' strands rfl).2)).symm
  | some b =>
    rw [body] at strands
    rw [show ∀ l : List Strand, l ++ ⟨number, none⟩ :: (some b).toList.map (fun c => ⟨number, some c⟩) =
      (l ++ [⟨number, none⟩]) ++ [⟨number, some b⟩] from fun l => by rw [List.append_assoc]; rfl] at strands
    exact (congrArg Strand.task (List.singleton_inj.mp (List.append_inj' strands rfl).2)).symm

theorem Runtime.Lineage.strands_last {R : Runtime} (lineage : R.Lineage) {t : Nat} (isTask : t < R.tasks)
    {above : List Strand} {strand : Strand} (strands : (R.task t).strands t = above ++ [strand]) : strand ∉ above := by
  have self := Task.strands_self strands
  have notAbove : strand ∉ (R.task t).line := by
    intro inside
    have earlier := (lineage.through isTask inside).1
    omega
  unfold Task.strands at strands
  cases body : (R.task t).body with
  | none =>
    rw [body] at strands
    rw [← (List.append_inj' strands rfl).1]
    exact notAbove
  | some b =>
    rw [body] at strands
    rw [show ∀ l : List Strand, l ++ ⟨t, none⟩ :: (some b).toList.map (fun c => ⟨t, some c⟩) =
      (l ++ [⟨t, none⟩]) ++ [⟨t, some b⟩] from fun l => by rw [List.append_assoc]; rfl] at strands
    obtain ⟨upper, last⟩ := List.append_inj' strands rfl
    rw [← upper, ← List.singleton_inj.mp last]
    rw [← List.singleton_inj.mp last] at notAbove
    simpa using notAbove

theorem Runtime.Lineage.line_last {R : Runtime} (lineage : R.Lineage) {t : Nat} (isTask : t < R.tasks)
    (notRoot : t ≠ 0) : ∃ upper strand, (R.task t).line = upper ++ [strand] ∧ strand.task = (R.task t).parent := by
  obtain ⟨-, body, line⟩ := lineage.line t isTask notRoot
  cases body with
  | none => exact ⟨_, _, line, rfl⟩
  | some b => exact ⟨_, _, line.trans (List.append_cons _ _ _), rfl⟩

structure Origins (R : Runtime) (d : Detector) (owner : Nat → Strand) (fork : Nat → Contents)
    (below : Strand → Contents) : Prop where
  past : ∀ r < d.heap.next, (owner r).task < R.tasks ∧ (R.task (owner r).task).begun = true ∧
    ∀ c, (owner r).body = some c → R.Past (owner r).task c
  suits : ∀ r < d.heap.next, R.Suits (owner r) (d.plain r)
  chain : ∀ t < R.tasks, (R.task t).begun = true → ∀ label, d.label t = some label →
    label.IsChain fun z q =>
      R.Above fork below (fun c k => k ≤ (R.task c).passed) (d.plain z) (owner q)
  forked : ∀ r < R.regions, R.IsOpen r → (R.task (R.memberOf r 0)).ended = false →
    ∃ init x, d.label (R.region r).encountering = some (init ++ [x]) ∧ d.plain x = fork r ∧
      ∀ i < (R.region r).size, (R.task (R.memberOf r i)).begun = true →
        ∃ y rest, d.label (R.memberOf r i) = some (init ++ y :: rest) ∧
          d.plain y = (fork r).bump (R.task (R.memberOf r i)).passed
  births : ∀ c < R.tasks, (R.task c).kind = .explicit → ∀ label, d.label (R.task c).parent = some label →
    ∀ z ∈ label, (R.task c).line.getLast? = some (owner z) → R.tick d c < (d.plain z).taskcreate
  apart : ∀ c < R.tasks, (R.task c).kind = .explicit → ∀ c' < R.tasks, (R.task c').kind = .explicit → c ≠ c' →
    (R.task c).line = (R.task c').line → R.tick d c ≠ R.tick d c'

/-- No unit that a task enters has segments already. -/
theorem Origins.opens_fresh {R : Runtime} {d : Detector} {owner : Nat → Strand} {fork : Nat → Contents}
    {below : Strand → Contents} (origins : Origins R d owner fork below) {t : Nat} {c : Construct}
    (opens : (R.task t).Opens c) : ∀ r < d.heap.next, owner r ≠ ⟨t, some c⟩ := by
  intro r bound same
  have past := (origins.past r bound).2.2 c (by rw [same])
  rw [same] at past
  obtain ⟨k, number, less, ranks⟩ : R.Past t c := past
  rcases opens with fresh | ⟨c₀, k', units, number₀, number', later⟩
  · rw [number, Option.some.injEq] at fresh
    omega
  · rw [number, Option.some.injEq] at number'
    have first := ranks c₀ (by rw [units]; exact List.mem_singleton_self _) (number₀.trans (by rw [number']))
    omega

/-- A step of the program and of the detector that keeps the labels in step with the strands. -/
structure Advance (R : Runtime) (d d' : Detector) (owner owner' : Nat → Strand) (e : Event) : Prop where
  enabled : R.enabled e = true
  handled : d.handle R e = .ok d'
  nested : R.Nested
  lineage : R.Lineage
  closing : R.Closing
  lined : Lined R d owner
  lined' : Lined (R.after e) d' owner'
  births : SameBirths R (R.after e) d d'
  owners : ∀ r < d.heap.next, owner' r = owner r
  grows : d.heap.Grows d'.heap

theorem Placed.advance {s s' : System} {owner : Nat → Strand} (placed : Placed s owner) (nested : s.runtime.Nested)
    (lineage : s.runtime.Lineage) (closing : s.runtime.Closing) {e : Event} (stepped : s.step e = some s') :
    ∃ owner', Placed s' owner' ∧ Advance s.runtime s.detector s'.detector owner owner' e := by
  obtain ⟨enabled, handled, runtime, -⟩ := System.step_cases stepped
  obtain ⟨owner', placed', carries⟩ := placed.step nested lineage stepped
  have lined' := placed'.lined
  have births := carries.births
  rw [runtime] at lined' births
  exact ⟨owner', placed',
    ⟨enabled, handled, nested, lineage, closing, placed.lined, lined', births, carries.owners, carries.grows⟩⟩

inductive Fresh (R : Runtime) (d d' : Detector) (owner owner' : Nat → Strand) (e : Event) (r : Nat) : Prop
  | version {r₀} : r₀ < d.heap.next → owner' r = owner r₀ → d'.plain r = e.count (d.plain r₀) →
      Fresh R d d' owner owner' e r
  | bumped {r₀ t upper own} : e = .barrierEnd t → d.label t = some (upper ++ [r₀, own]) → r₀ < d.heap.next →
      owner' r = owner r₀ → d'.plain r = (d.plain r₀).bump 1 → Fresh R d d' owner owner' e r
  | unit {t c} : t < R.tasks → (R.task t).begun = true → owner' r = ⟨t, some c⟩ → (R.task t).Opens c →
      ((R.after e).task t).units = [c] → (d'.plain r).IsUnit → Fresh R d d' owner owner' e r
  | task {t} : e = .taskCreate t → owner' r = ⟨R.tasks, none⟩ → d'.plain r = .base 2 0 1 →
      Fresh R d d' owner owner' e r
  | member {ρ i} : ρ < R.regions → i < (R.region ρ).size → e = .implicitBegin (R.memberOf ρ i) →
      owner' r = ⟨R.memberOf ρ i, none⟩ → d'.plain r = .base 1 i (R.region ρ).size → Fresh R d d' owner owner' e r

namespace Advance

variable {R : Runtime} {d d' : Detector} {owner owner' : Nat → Strand} {e : Event} {fork : Nat → Contents}
  {below : Strand → Contents}

variable (adv : Advance R d d' owner owner' e)

include adv

theorem turn : Turn R d d' owner owner' e := adv.lined.turn adv.lined' adv.nested adv.lineage adv.enabled adv.handled
theorem nested' : (R.after e).Nested := adv.nested.after adv.enabled
theorem lineage' : (R.after e).Lineage := adv.lineage.after adv.nested adv.enabled

theorem plain {r : Nat} (bound : r < d.heap.next) : d'.plain r = d.plain r := adv.grows.plain r bound

theorem held {t : Nat} {label : Label} (isTask : t < R.tasks) (begun : (R.task t).begun = true)
    (known : d.label t = some label) : ∀ r ∈ label, r < d.heap.next :=
  (adv.lined.place_length isTask begun known).2

theorem fresh {r : Nat} (bound : r < d'.heap.next) (new : ¬ r < d.heap.next) : Fresh R d d' owner owner' e r := by
  cases adv.turn with
  | still _ _ next => omega
  | touch plain isTask begun live free actor moves low count same next renewal =>
    have held := adv.held isTask begun moves.old
    cases renewal with
    | gone => simp at next; omega
    | @version r₀ rest kept counted =>
      obtain rfl : r = d.heap.next := by simp at next; omega
      exact .version (held r₀ (by simp)) kept counted
    | unit owns opens units type =>
      obtain rfl : r = d.heap.next := by simp at next; omega
      exact .unit isTask begun owns opens units type
  | @create t init r₀ isTask begun live free old now made others next own kept plain counted =>
    have cases : r = d.heap.next ∨ r = d.heap.next + 1 := by omega
    rcases cases with rfl | rfl
    · exact .task rfl own plain
    · exact .version (adv.held isTask begun old r₀ (by simp)) kept counted
  | @enter ρ i upper isRegion isMember isOpen unbegun old now others next own plain =>
    obtain rfl : r = d.heap.next := by omega
    exact .member isRegion isMember rfl own plain
  | @barrier ρ i upper x own isRegion isMember begun live idle moves low next kept bumped =>
    obtain rfl : r = d.heap.next := by omega
    exact .bumped rfl moves.old (adv.held (adv.nested.member_lt isRegion isMember) begun moves.old x (by simp)) kept
      bumped
  | join _ _ _ _ _ _ _ heap =>
    rw [heap] at bound
    exact absurd bound new

theorem past_after {t : Nat} {c : Construct} (isTask : t < R.tasks) (past : R.Past t c) : (R.after e).Past t c := by
  obtain ⟨k, number, bound, ranks⟩ := past
  refine ⟨k, number, ?_⟩
  cases Runtime.units_after adv.lineage adv.enabled isTask with
  | same units works => exact ⟨works ▸ bound, units ▸ ranks⟩
  | work empty units number' works =>
    refine ⟨by omega, fun c' inside same => ?_⟩
    rw [units, List.mem_singleton] at inside
    subst inside
    rw [number', Option.some.injEq] at same
    omega
  | done before units works =>
    refine ⟨works ▸ bound, fun c' inside => ?_⟩
    rw [units] at inside
    cases inside
  | @next id c₀ c₁ j before units number₀ number₁ later works =>
    refine ⟨works ▸ bound, fun c' inside same => ?_⟩
    rw [units, List.mem_singleton] at inside
    subst inside
    rw [number₁] at same
    have first := ranks c₀ (by rw [before]; exact List.mem_singleton_self _) (number₀.trans same)
    omega

theorem suits_after {strand : Strand} {z : Contents} (isTask : strand.task < R.tasks) (suits : R.Suits strand z) :
    (R.after e).Suits strand z := by
  unfold Runtime.Suits at suits ⊢
  cases body : strand.body with
  | some c =>
    rw [body] at suits
    exact suits
  | none =>
    rw [body] at suits
    simp only at suits ⊢
    rw [((Runtime.after_extends R e).fixed _ isTask).kind]
    cases kind : (R.task strand.task).kind with
    | initial | explicit =>
      rw [kind] at suits
      exact suits
    | implicit r i =>
      rw [kind] at suits
      simp only at suits ⊢
      rw [(Runtime.region_after (adv.nested.member _ isTask r i kind).1).size]
      exact suits

theorem past_field (origins : Origins R d owner fork below) : ∀ r < d'.heap.next, (owner' r).task < (R.after e).tasks ∧
    ((R.after e).task (owner' r).task).begun = true ∧
    ∀ c, (owner' r).body = some c → (R.after e).Past (owner' r).task c := by
  have grown := (Runtime.after_extends R e).tasks
  have old : ∀ r < d.heap.next, (owner r).task < (R.after e).tasks ∧
      ((R.after e).task (owner r).task).begun = true ∧
      ∀ c, (owner r).body = some c → (R.after e).Past (owner r).task c := by
    intro r bound
    obtain ⟨isTask, begun, past⟩ := origins.past r bound
    exact ⟨Nat.lt_of_lt_of_le isTask grown, Runtime.begun_lasts isTask begun, fun c body =>
      adv.past_after isTask (past c body)⟩
  intro r bound
  by_cases new : r < d.heap.next
  · rw [adv.owners r new]
    exact old r new
  · cases adv.fresh bound new with
    | version there kept | bumped _ _ there kept =>
      rw [kept]
      exact old _ there
    | @unit t c isTask begun owns opens units type =>
      rw [owns]
      refine ⟨Nat.lt_of_lt_of_le isTask grown, Runtime.begun_lasts isTask begun, fun c' same => ?_⟩
      cases same
      have number : ∃ k, c.number = some k := by
        rcases opens with number | ⟨_, k, -, -, number, -⟩
        · exact ⟨_, number⟩
        · exact ⟨k, number⟩
      obtain ⟨k, number⟩ := number
      refine ⟨k, number, (adv.lineage'.units t).2 c (by rw [units]; exact List.mem_singleton_self c) k number,
        fun c' inside _ => ?_⟩
      rw [units, List.mem_singleton] at inside
      rw [inside]
    | @task t creates owns plain =>
      subst creates
      rw [owns]
      exact ⟨Nat.lt_succ_self _, by simp [Runtime.after, Task.new], fun c none => by cases none⟩
    | @member ρ i isRegion isMember begins owns plain =>
      subst begins
      rw [owns]
      exact ⟨adv.nested.member_lt isRegion isMember, by simp [Runtime.after], fun c none => by cases none⟩

theorem suits_field (origins : Origins R d owner fork below) :
    ∀ r < d'.heap.next, (R.after e).Suits (owner' r) (d'.plain r) := by
  have old : ∀ r < d.heap.next, (R.after e).Suits (owner r) (d.plain r) := fun r bound =>
    adv.suits_after (origins.past r bound).1 (origins.suits r bound)
  have kept : ∀ {strand : Strand} {z z' : Contents}, z'.type = z.type → z'.span = z.span →
      z'.workShareId = z.workShareId → (R.after e).Suits strand z → (R.after e).Suits strand z' := by
    intro strand z z' type span id suits
    unfold Runtime.Suits Contents.IsUnit at suits ⊢
    rw [type, span, id]
    exact suits
  intro r bound
  by_cases new : r < d.heap.next
  · rw [adv.owners r new, adv.plain new]
    exact old r new
  · cases adv.fresh bound new with
    | version there owns counted =>
      rw [owns, counted]
      exact kept (Event.count_type ..) (Event.count_span ..) (Event.count_workShareId ..) (old _ there)
    | bumped _ _ there owns counted =>
      rw [owns, counted]
      exact kept rfl rfl rfl (old _ there)
    | unit _ _ owns _ _ type =>
      rw [owns]
      exact type
    | @task t creates owns plain =>
      subst creates
      have kind : ((R.after (.taskCreate t)).task R.tasks).kind = .explicit := by simp [Runtime.after, Task.new]
      rw [owns, plain]
      simp only [Runtime.Suits, kind]
      exact ⟨rfl, rfl⟩
    | @member ρ i isRegion isMember begins owns plain =>
      have isTask := adv.nested.member_lt isRegion isMember
      have kind := ((Runtime.after_extends R e).fixed _ isTask).kind.trans (adv.nested.kind ρ isRegion i isMember).1
      rw [owns, plain]
      simp only [Runtime.Suits, kind]
      exact ⟨rfl, (Runtime.region_after isRegion).size.symm⟩

theorem passed_after {x : Nat} (isTask : x < R.tasks) : (R.task x).passed ≤ ((R.after e).task x).passed := by
  cases Runtime.barriers_after (R := R) (e := e) isTask with
  | same _ passed | comes _ passed => exact passed.ge
  | leaves _ passed => rw [passed]; exact Nat.le_succ _

theorem open_before {r : Nat} (isRegion : r < R.regions)
    (live : ((R.after e).task (R.memberOf r 0)).ended = false) :
    R.IsOpen r ∧ (R.task (R.memberOf r 0)).ended = false := by
  have first := (adv.nested.bounds r isRegion).1
  have before : (R.task (R.memberOf r 0)).ended = false := by
    rw [← Bool.not_eq_true]
    intro ended
    cases (Runtime.ended_lasts (adv.nested.member_lt isRegion first) ended).symm.trans live
  exact ⟨adv.nested.live_open isRegion first before, before⟩

theorem begun_closing {r i : Nat} (isRegion : r < R.regions) (isMember : i < (R.region r).size)
    (closing : (R.task (R.memberOf r i)).closing = true) : (R.task (R.memberOf r i)).begun = true := by
  rw [← Bool.not_eq_false]
  intro unbegun
  cases closing.symm.trans ((adv.nested.counters r isRegion i isMember).unbegun unbegun).2.1

theorem first_live {r i : Nat} (isRegion : r < R.regions) (isMember : i < (R.region r).size)
    (live : (R.task (R.memberOf r i)).ended = false) : (R.task (R.memberOf r 0)).ended = false := by
  rw [← Bool.not_eq_true]
  intro ended
  cases (adv.closing.last r isRegion ended i isMember).symm.trans live

omit adv in
theorem isChain_concat {α : Type} {P : α → α → Prop} {upper : List α} {x : α} (chain : upper.IsChain P)
    (last : ∀ z, upper.getLast? = some z → P z x) : (upper ++ [x]).IsChain P := by
  refine List.isChain_append.mpr ⟨chain, List.isChain_singleton x, fun z isLast y isHead => ?_⟩
  rw [List.head?_cons, Option.mem_some_iff] at isHead
  exact isHead ▸ last z isLast

omit adv in
theorem isChain_last {α : Type} {P : α → α → Prop} {upper rest : List α} {x z : α}
    (chain : (upper ++ x :: rest).IsChain P)
    (last : upper.getLast? = some z) : P z x :=
  (List.isChain_append.mp chain).2.2 z last x rfl

theorem above_after {fork' : Nat → Contents} {below' : Strand → Contents} {bound bound' : Nat → Nat → Prop}
    (origins : Origins R d owner fork below) (forks : ∀ r < R.regions, fork' r = fork r)
    (belows : ∀ r < d.heap.next, below' (owner r) = below (owner r))
    (bounds : ∀ x < R.tasks, ∀ k, bound x k → bound' x k) {z q : Nat} (there : z < d.heap.next) (there' : q < d.heap.next)
    (above : R.Above fork below bound (d.plain z) (owner q)) :
    (R.after e).Above fork' below' bound' (d'.plain z) (owner' q) := by
  rw [adv.plain there, adv.owners q there']
  have isTask := (origins.past q there').1
  unfold Runtime.Above at above ⊢
  cases body : (owner q).body with
  | some c =>
    rw [body] at above
    rw [belows q there']
    exact above
  | none =>
    rw [body] at above
    intro r i kind
    rw [((Runtime.after_extends R e).fixed _ isTask).kind] at kind
    obtain ⟨k, within, same⟩ := above r i kind
    refine ⟨k, bounds _ isTask k within, ?_⟩
    rw [forks r (adv.nested.member _ isTask r i kind).1]
    exact same

section Chain

variable {fork' : Nat → Contents} {below' : Strand → Contents} (origins : Origins R d owner fork below)
  (forks : ∀ r < R.regions, fork' r = fork r) (belows : ∀ r < d.heap.next, below' (owner r) = below (owner r))

include origins forks belows

theorem chain_old {t : Nat} {label : Label} (isTask : t < R.tasks) (begun : (R.task t).begun = true)
    (known : d.label t = some label) : label.IsChain fun z q =>
      (R.after e).Above fork' below' (fun c k => k ≤ ((R.after e).task c).passed) (d'.plain z) (owner' q) := by
  have held := adv.held isTask begun known
  refine (origins.chain t isTask begun label known).imp_of_mem_imp fun z q first second above => ?_
  exact adv.above_after origins forks belows (fun x isTask k within => within.trans (adv.passed_after isTask))
    (held z first) (held q second) above

theorem chain_field (units : ∀ {t c upper}, d'.label t = some (upper ++ [d.heap.next]) →
    owner' d.heap.next = ⟨t, some c⟩ →
      (R.task t).Opens c → ∀ z, upper.getLast? = some z → below' ⟨t, some c⟩ = d.plain z) :
    ∀ t < (R.after e).tasks, ((R.after e).task t).begun = true → ∀ label, d'.label t = some label →
      label.IsChain fun z q => (R.after e).Above fork' below' (fun c k => k ≤ ((R.after e).task c).passed)
        (d'.plain z) (owner' q) := by
  intro x isTask begun' label known
  have chain := fun {t label} =>
    @chain_old R d d' owner owner' e fork below adv fork' below' origins forks belows t label
  have old : ∀ {y}, y < R.tasks → (R.task y).begun = true → d'.label y = d.label y → d'.label y = some label →
      label.IsChain fun z q => (R.after e).Above fork' below' (fun c k => k ≤ ((R.after e).task c).passed)
        (d'.plain z) (owner' q) :=
    fun isTask begun same known => chain isTask begun (same.symm.trans known)
  -- another version of a segment in its place
  have version : ∀ {t init r rest n}, t < R.tasks → (R.task t).begun = true → d.label t = some (init ++ r :: rest) →
      owner' n = owner r → (init ++ [n]).IsChain fun z q => (R.after e).Above fork' below' (fun c k => k ≤ ((R.after e).task c).passed)
        (d'.plain z) (owner' q) := by
    intro t init r rest n isTask begun known owns
    have before := chain isTask begun known
    have there := adv.held isTask begun known r (by simp)
    refine isChain_concat (List.isChain_append.mp before).1 fun z last => ?_
    have above := isChain_last before last
    rw [adv.owners r there, ← owns] at above
    exact above
  cases adv.turn with
  | still plain labels next begun =>
    obtain ⟨isTask, begun⟩ := begun x isTask begun'
    exact old isTask begun (labels x) known
  | @touch _ t upper dropped new plain isTask' begun live free actor moves low count same next renewal =>
    rw [count] at isTask
    by_cases self : x = t
    · subst self
      rw [moves.new, Option.some.injEq] at known
      subst known
      cases renewal with
      | gone =>
        rw [List.append_nil]
        exact (List.isChain_append.mp (chain isTask' begun moves.old)).1
      | @version r rest kept counted =>
        exact version isTask' begun moves.old kept
      | @unit dropped c owns opens after type =>
        refine isChain_concat (List.isChain_append.mp (chain isTask' begun moves.old)).1 fun z last => ?_
        have there := adv.held isTask' begun moves.old z (List.mem_append_left _ (List.mem_of_getLast? last))
        rw [owns, Runtime.Above, units moves.new owns opens z last, adv.plain there]
    · exact old isTask ((same x isTask).symm.trans begun') (moves.others x self) known
  | @create t init r isTask' begun live free before now made others next own kept plain counted =>
    by_cases self : x = t
    · subst self
      rw [now, Option.some.injEq] at known
      subst known
      exact version isTask' begun before kept
    · by_cases new : x = R.tasks
      · subst new
        rw [made, Option.some.injEq] at known
        subst known
        rw [show init ++ [r, d.heap.next] = (init ++ [r]) ++ [d.heap.next] by rw [List.append_assoc]; rfl]
        refine isChain_concat (chain isTask' begun before) fun z _ => ?_
        rw [own]
        intro ρ i kind
        simp [Runtime.after, Task.new] at kind
      · have isTask : x < R.tasks + 1 := isTask
        have same : (R.after (.taskCreate t)).task x = R.task x := by simp [Runtime.after, new]
        exact old (by omega) (by rw [← same]; exact begun') (others x self new) known
  | @enter ρ i upper isRegion isMember isOpen unbegun before now others next own plain =>
    by_cases self : x = R.memberOf ρ i
    · subst self
      rw [now, Option.some.injEq] at known
      subst known
      have counters := adv.nested.counters ρ isRegion i isMember
      have live : (R.task (R.memberOf ρ i)).ended = false := by
        rw [← Bool.not_eq_true]
        intro ended
        cases (counters.ended ended).1.symm.trans (counters.unbegun unbegun).2.1
      obtain ⟨init, y, known, same, -⟩ := origins.forked ρ isRegion isOpen (adv.first_live isRegion isMember live)
      rw [before, Option.some.injEq] at known
      subst known
      have forker := adv.nested.forker adv.lineage isRegion isOpen
      have isForker := adv.nested.encountering_lt isRegion
      refine isChain_concat (chain isForker forker.1 before) fun z last => ?_
      have there := adv.held isForker forker.1 before y (by simp)
      rw [List.getLast?_concat, Option.some.injEq] at last
      subst last
      rw [own, adv.plain there, same]
      intro ρ' i' kind
      rw [((Runtime.after_extends R _).fixed _ (adv.nested.member_lt isRegion isMember)).kind,
        (adv.nested.kind ρ isRegion i isMember).1] at kind
      cases kind
      refine ⟨0, Nat.zero_le _, ?_⟩
      rw [forks ρ isRegion, Contents.bump_zero]
      rw [← same]
      exact plain_offset_lt _
    · have same : (R.after (.implicitBegin (R.memberOf ρ i))).task x = R.task x := by simp [Runtime.after, self]
      exact old isTask (by rw [← same]; exact begun') (others x self) known
  | @barrier ρ i upper y own isRegion isMember begun live idle moves low next kept bumped =>
    have isTask' := adv.nested.member_lt isRegion isMember
    by_cases self : x = R.memberOf ρ i
    · subst self
      rw [moves.new, Option.some.injEq] at known
      subst known
      have held := adv.held isTask' begun moves.old
      have first := version isTask' begun moves.old kept
      rw [show upper ++ [d.heap.next, own] = (upper ++ [d.heap.next]) ++ [own] by rw [List.append_assoc]; rfl]
      refine isChain_concat first fun z last => ?_
      rw [List.getLast?_concat, Option.some.injEq] at last
      subst last
      have before := origins.chain _ isTask' begun _ moves.old
      rw [List.append_cons upper y [own]] at before
      have above := isChain_last before List.getLast?_concat
      have strand : owner own = ⟨R.memberOf ρ i, none⟩ := by
        have place : R.place (R.memberOf ρ i) = (R.task (R.memberOf ρ i)).line ++ [⟨R.memberOf ρ i, none⟩] := by
          rw [Runtime.place_live live, Task.strands_plain (Task.units_groups idle)]
        have known : d.label (R.memberOf ρ i) = some ((upper ++ [y]) ++ [own]) := by
          rw [moves.old, List.append_assoc]
          rfl
        exact (adv.lined.last_owner isTask' begun known place).2
      rw [adv.owners own (held own (by simp)), strand]
      rw [strand] at above
      intro ρ' i' kind
      rw [((Runtime.after_extends R _).fixed _ isTask').kind] at kind
      obtain ⟨k, within, same⟩ := above ρ' i' kind
      refine ⟨k + 1, ?_, ?_⟩
      · have task : (R.after (.barrierEnd (R.memberOf ρ i))).task (R.memberOf ρ i) =
            { R.task (R.memberOf ρ i) with passed := (R.task (R.memberOf ρ i)).passed + 1 } := by
          simp only [Runtime.after, Runtime.set_task, if_true]
        change _ ≤ ((R.after _).task (R.memberOf ρ i)).passed
        rw [task]
        exact Nat.succ_le_succ within
      · rw [bumped, same, Contents.bump_bump, forks ρ' (adv.nested.member _ isTask' ρ' i' kind).1]
    · have same : (R.after (.barrierEnd (R.memberOf ρ i))).task x = R.task x := by simp [Runtime.after, self]
      exact old isTask (by rw [← same]; exact begun') (moves.others x self) known
  | @join ρ upper own isRegion live closing settled before now others heap =>
    have same : ((R.after (.implicitEnd (R.memberOf ρ 0))).task x).begun = (R.task x).begun := by
      by_cases self : x = R.memberOf ρ 0 <;> simp [Runtime.after, self]
    by_cases self : x = (R.region ρ).encountering
    · subst self
      rw [now, Option.some.injEq] at known
      subst known
      have first := (adv.nested.bounds ρ isRegion).1
      have begun := adv.begun_closing isRegion first closing
      exact (List.isChain_append.mp (chain (adv.nested.member_lt isRegion first) begun before)).1
    · exact old isTask (same.symm.trans begun') (others x self) known

end Chain

theorem member_line {r i : Nat} {label : Label} (isRegion : r < R.regions) (isMember : i < (R.region r).size)
    (live : (R.task (R.memberOf r i)).ended = false) (known : d.label (R.region r).encountering = some label) :
    (R.task (R.memberOf r i)).line.length = label.length := by
  have forker := adv.nested.forker adv.lineage isRegion (adv.nested.live_open isRegion isMember live)
  have mapped := (adv.lined.place_length (adv.nested.encountering_lt isRegion) forker.1 known).1
  rw [Runtime.place_live forker.2, ← adv.lineage.waiting r isRegion i isMember live] at mapped
  rw [← mapped, List.length_map]

omit adv in
theorem begins_in {α : Type} {init rest upper lower : List α} {y : α} (same : init ++ y :: rest = upper ++ lower)
    (short : init.length + 1 ≤ upper.length) : ∃ more, upper = init ++ y :: more := by
  have begins : init ++ [y] <+: upper := by
    have whole : init ++ [y] <+: upper ++ lower := ⟨rest, by rw [← same, List.append_assoc]; rfl⟩
    exact List.prefix_of_prefix_length_le whole (List.prefix_append _ _) (by simpa using short)
  obtain ⟨more, same⟩ := begins
  exact ⟨more, by rw [← same, List.append_assoc]; rfl⟩

theorem passed_same {x : Nat} (isTask : x < R.tasks) (plain : e ≠ .barrierEnd x) :
    ((R.after e).task x).passed = (R.task x).passed := by
  cases Runtime.barriers_after (R := R) (e := e) isTask with
  | same _ passed | comes _ passed => exact passed
  | leaves => exact absurd rfl plain

theorem joining {r : Nat} (isRegion : r < R.regions) (ends : e = .implicitEnd (R.memberOf r 0)) : ∃ upper own,
    (R.task (R.memberOf r 0)).ended = false ∧ (R.task (R.memberOf r 0)).closing = true ∧
      (R.task (R.memberOf r 0)).arrived = (R.task (R.memberOf r 0)).passed ∧
      d.label (R.memberOf r 0) = some (upper ++ [own]) ∧ d'.label (R.region r).encountering = some upper ∧
      d'.heap = d.heap := by
  subst ends
  have first := (adv.nested.bounds r isRegion).1
  have kind := (adv.nested.kind r isRegion 0 first).1
  have enabled := adv.enabled
  simp only [Runtime.enabled, Bool.and_eq_true, decide_eq_true_eq, Bool.not_eq_true', beq_iff_eq] at enabled
  obtain ⟨⟨⟨⟨-, closing⟩, settled⟩, live⟩, -⟩ := enabled
  obtain ⟨upper, own, -, old, heap, new, -⟩ := Detector.handle_implicitEnd_first kind adv.handled
  rw [(adv.nested.kind r isRegion 0 first).2.1] at new
  exact ⟨upper, own, live, closing, settled, old, new, heap⟩

/-- The label that the first member hands back is the one of the task that forked the region, but for the version
    of its last segment. -/
theorem join_shape (origins : Origins R d owner fork below) {r own : Nat} {upper : Label} (isRegion : r < R.regions)
    (live : (R.task (R.memberOf r 0)).ended = false) (closing : (R.task (R.memberOf r 0)).closing = true)
    (known : d.label (R.memberOf r 0) = some (upper ++ [own])) :
    ∃ init x y, d.label (R.region r).encountering = some (init ++ [x]) ∧ upper = init ++ [y] ∧ d.plain x = fork r ∧
      d.plain y = (fork r).bump (R.task (R.memberOf r 0)).passed ∧ owner y = owner x := by
  have first := (adv.nested.bounds r isRegion).1
  have isOpen := adv.nested.live_open isRegion first live
  have isTask := adv.nested.member_lt isRegion first
  have forker := adv.nested.forker adv.lineage isRegion isOpen
  have isForker := adv.nested.encountering_lt isRegion
  have begun := adv.begun_closing isRegion first closing
  have idle := adv.nested.closing_idle isTask closing
  obtain ⟨init, x, knownF, same, members⟩ := origins.forked r isRegion isOpen live
  obtain ⟨y, rest, known', same'⟩ := members 0 first begun
  have line := adv.member_line isRegion first live knownF
  have length := adv.lined.label_length isTask begun live known'
  rw [Task.body, idle, line] at length
  rw [known, Option.some.injEq] at known'
  have split : upper = init ++ [y] := by
    cases rest with
    | nil => simp at length
    | cons z rest =>
      simp only [List.length_append, List.length_cons, List.length_nil, List.find?_nil, Option.toList_none] at length
      obtain rfl := List.eq_nil_of_length_eq_zero (show rest.length = 0 by omega)
      rw [show init ++ [y, z] = (init ++ [y]) ++ [z] by rw [List.append_assoc]; rfl] at known'
      exact (List.append_inj' known' rfl).1
  subst split
  refine ⟨init, x, y, knownF, rfl, same, same', ?_⟩
  have mapped := (adv.lined.place_length isForker forker.1 knownF).1
  have mapped' := (adv.lined.place_length isTask begun known).1
  rw [Runtime.place_live live, Task.strands_plain (by rw [Task.units, idle]; rfl),
    adv.lineage.waiting r isRegion 0 first live, ← Runtime.place_live forker.2, ← mapped, List.map_append] at mapped'
  have upper := (List.append_inj' mapped' rfl).1
  rw [List.map_append, List.map_append] at upper
  exact List.singleton_inj.mp (List.append_inj' upper rfl).2

theorem barrier_shape (origins : Origins R d owner fork below) {r i y own : Nat} {upper : Label}
    (isRegion : r < R.regions) (isMember : i < (R.region r).size) (begun : (R.task (R.memberOf r i)).begun = true)
    (live : (R.task (R.memberOf r i)).ended = false) (known : d.label (R.memberOf r i) = some (upper ++ [y, own]))
    (low : (R.task (R.memberOf r i)).line.length = upper.length + 1) :
    ∃ x, d.label (R.region r).encountering = some (upper ++ [x]) ∧ d.plain x = fork r ∧
      d.plain y = (fork r).bump (R.task (R.memberOf r i)).passed := by
  have isOpen := adv.nested.live_open isRegion isMember live
  obtain ⟨init, x, forker, same, members⟩ := origins.forked r isRegion isOpen (adv.first_live isRegion isMember live)
  obtain ⟨y', rest, known', same'⟩ := members i isMember begun
  have line := adv.member_line isRegion isMember live forker
  rw [List.length_append, List.length_singleton] at line
  rw [known, Option.some.injEq] at known'
  obtain ⟨rfl, rest_⟩ := List.append_inj known' (by omega)
  cases rest_
  exact ⟨x, forker, same, same'⟩

theorem forked_old (origins : Origins R d owner fork below) {r : Nat} (isRegion : r < R.regions) (isOpen : R.IsOpen r)
    (live : (R.task (R.memberOf r 0)).ended = false) (live' : ((R.after e).task (R.memberOf r 0)).ended = false) :
    ∃ init x, d'.label (R.region r).encountering = some (init ++ [x]) ∧ d'.plain x = fork r ∧
      ∀ i < (R.region r).size, ((R.after e).task (R.memberOf r i)).begun = true →
        ∃ y rest, d'.label (R.memberOf r i) = some (init ++ y :: rest) ∧
          d'.plain y = (fork r).bump ((R.after e).task (R.memberOf r i)).passed := by
  obtain ⟨init, x, known, same, members⟩ := origins.forked r isRegion isOpen live
  have isForker := adv.nested.encountering_lt isRegion
  have forker := adv.nested.forker adv.lineage isRegion isOpen
  obtain ⟨rest₀, waits⟩ := Runtime.Nested.open_head isOpen
  have there := adv.held isForker forker.1 known x (by simp)
  have isTask := fun {i} => adv.nested.member_lt (i := i) isRegion
  have lengths : ∀ i < (R.region r).size, (R.task (R.memberOf r i)).ended = false →
      (R.task (R.memberOf r i)).line.length = init.length + 1 := by
    intro i isMember live
    rw [adv.member_line isRegion isMember live known, List.length_append, List.length_singleton]
  have kept : ∀ i < (R.region r).size, (R.task (R.memberOf r i)).begun = true → e ≠ .barrierEnd (R.memberOf r i) →
      d'.label (R.memberOf r i) = d.label (R.memberOf r i) →
      ∃ y rest, d'.label (R.memberOf r i) = some (init ++ y :: rest) ∧
        d'.plain y = (fork r).bump ((R.after e).task (R.memberOf r i)).passed := by
    intro i isMember begun plain label
    obtain ⟨y, rest, known, same⟩ := members i isMember begun
    refine ⟨y, rest, label.trans known, ?_⟩
    rw [adv.plain (adv.held (isTask isMember) begun known y (by simp)), adv.passed_same (isTask isMember) plain, same]
  have touched : ∀ i < (R.region r).size, (R.task (R.memberOf r i)).begun = true →
      (R.task (R.memberOf r i)).ended = false →
      e ≠ .barrierEnd (R.memberOf r i) → ∀ upper lower lower', d.label (R.memberOf r i) = some (upper ++ lower) →
      (R.task (R.memberOf r i)).line.length ≤ upper.length → d'.label (R.memberOf r i) = some (upper ++ lower') →
      ∃ y rest, d'.label (R.memberOf r i) = some (init ++ y :: rest) ∧
        d'.plain y = (fork r).bump ((R.after e).task (R.memberOf r i)).passed := by
    intro i isMember begun live plain upper lower lower' old low new
    obtain ⟨y, rest, known, same⟩ := members i isMember begun
    have held := adv.held (isTask isMember) begun known y (by simp)
    rw [known, Option.some.injEq] at old
    rw [lengths i isMember live] at low
    obtain ⟨more, rfl⟩ := begins_in old low
    refine ⟨y, more ++ lower', by rw [new, List.append_assoc]; rfl, ?_⟩
    rw [adv.plain held, adv.passed_same (isTask isMember) plain, same]
  have begun_same : ∀ i < (R.region r).size, e ≠ .implicitBegin (R.memberOf r i) →
      ((R.after e).task (R.memberOf r i)).begun = true → (R.task (R.memberOf r i)).begun = true := by
    intro i isMember plain begun
    have bound := Nat.lt_of_lt_of_le (isTask isMember) (Runtime.after_extends R e).tasks
    rcases (Runtime.created_after adv.enabled).mp ⟨bound, begun⟩ with created | begins | ⟨t, -, new⟩
    · exact created.2
    · exact absurd begins plain
    · exact absurd (isTask isMember) (by omega)
  cases adv.turn with
  | still plain labels next begun =>
    refine ⟨init, x, (labels _).trans known, (adv.plain there).trans same, fun i isMember begun' => ?_⟩
    have bound := Nat.lt_of_lt_of_le (isTask isMember) (Runtime.after_extends R e).tasks
    exact kept i isMember (begun _ bound begun').2 (plain _) (labels _)
  | @touch _ t upper dropped new plain isTask' begun live free actor moves low count same' next renewal =>
    have notForker : (R.region r).encountering ≠ t := fun self => free r self isOpen
    refine ⟨init, x, (moves.others _ notForker).trans known, (adv.plain there).trans same, fun i isMember begun' => ?_⟩
    have begun'' := (same' _ (isTask isMember)).symm.trans begun'
    by_cases self : R.memberOf r i = t
    · exact touched i isMember begun'' (self ▸ live) (plain _) upper dropped new (self ▸ moves.old) (self ▸ low)
        (self ▸ moves.new)
    · exact kept i isMember begun'' (plain _) (moves.others _ self)
  | @create t init' r' isTask' begun live free before now made others next own owns plain counted =>
    have notForker : (R.region r).encountering ≠ t := fun self => free r self isOpen
    refine ⟨init, x, (others _ notForker (by omega)).trans known, (adv.plain there).trans same,
      fun i isMember begun' => ?_⟩
    have begun'' := begun_same i isMember (by simp) begun'
    by_cases self : R.memberOf r i = t
    · have length := adv.lined.label_length isTask' begun live before
      simp only [List.length_append, List.length_cons, List.length_nil] at length
      exact touched i isMember begun'' (self ▸ live) (by simp) init' [r'] [d.heap.next + 1] (self ▸ before)
        (by rw [self]; omega) (self ▸ now)
    · exact kept i isMember begun'' (by simp) (others _ self (Nat.ne_of_lt (isTask isMember)))
  | @enter ρ j upper isRegion' isMember' isOpen' unbegun before now others next own plain =>
    have notForker : (R.region r).encountering ≠ R.memberOf ρ j := by
      intro self
      rw [self] at forker
      cases forker.1.symm.trans unbegun
    refine ⟨init, x, (others _ notForker).trans known, (adv.plain there).trans same, fun i isMember begun' => ?_⟩
    by_cases self : R.memberOf r i = R.memberOf ρ j
    · obtain ⟨rfl, rfl⟩ := adv.nested.member_inj isRegion isMember isRegion' isMember' self
      rw [known, Option.some.injEq] at before
      subst before
      refine ⟨x, [d.heap.next], by rw [now, List.append_assoc]; rfl, ?_⟩
      have counters := adv.nested.counters r isRegion i isMember
      have none := (counters.unbegun unbegun).1
      have first := counters.passed
      have second := counters.arrived
      rw [adv.plain there, same, adv.passed_same (isTask isMember) (by simp),
        show (R.task (R.memberOf r i)).passed = 0 by omega, Contents.bump_zero]
      rw [← same]
      exact plain_offset_lt _
    · exact kept i isMember (begun_same i isMember (by simpa using Ne.symm self) begun') (by simp) (others _ self)
  | @barrier ρ j upper y own isRegion' isMember' begun live idle moves low next owns bumped =>
    have notForker : (R.region r).encountering ≠ R.memberOf ρ j := by
      intro self
      rw [← self, waits] at idle
      cases idle
    refine ⟨init, x, (moves.others _ notForker).trans known, (adv.plain there).trans same, fun i isMember begun' => ?_⟩
    have begun'' := begun_same i isMember (by simp) begun'
    by_cases self : R.memberOf r i = R.memberOf ρ j
    · obtain ⟨rfl, rfl⟩ := adv.nested.member_inj isRegion isMember isRegion' isMember' self
      obtain ⟨x', known', -, same'⟩ := adv.barrier_shape origins isRegion isMember begun live moves.old low
      rw [known, Option.some.injEq] at known'
      obtain rfl := (List.append_inj' known' rfl).1
      refine ⟨d.heap.next, [own], moves.new, ?_⟩
      have task : (R.after (.barrierEnd (R.memberOf r i))).task (R.memberOf r i) =
          { R.task (R.memberOf r i) with passed := (R.task (R.memberOf r i)).passed + 1 } := by
        simp only [Runtime.after, Runtime.set_task, if_true]
      rw [bumped, same', Contents.bump_bump, task]
    · exact kept i isMember begun'' (by simpa using Ne.symm self) (moves.others _ self)
  | @join ρ upper own isRegion' live₀ closing settled before now others heap =>
    have first := (adv.nested.bounds ρ isRegion').1
    have isOpen' := adv.nested.live_open isRegion' first live₀
    -- the region that is joined is another one, with another task that waits for it
    have differ : r ≠ ρ := by
      rintro rfl
      simp [Runtime.after] at live'
    have notForker : (R.region r).encountering ≠ (R.region ρ).encountering := by
      intro self
      rw [Runtime.IsOpen, self] at isOpen
      rw [Runtime.IsOpen, isOpen] at isOpen'
      cases isOpen'
      exact differ rfl
    refine ⟨init, x, (others _ notForker).trans known, (adv.plain there).trans same, fun i isMember begun' => ?_⟩
    have begun'' := begun_same i isMember (by simp) begun'
    by_cases self : R.memberOf r i = (R.region ρ).encountering
    · obtain ⟨init₂, x₂, y₂, known₂, rfl, -⟩ := adv.join_shape origins isRegion' live₀ closing before
      obtain ⟨y, rest, known', same'⟩ := members i isMember begun''
      have inner := (adv.nested.forker adv.lineage isRegion' isOpen').2
      rw [← self] at known₂ now inner
      have length := adv.lined.label_length (isTask isMember) begun'' inner known'
      rw [lengths i isMember inner] at length
      have held := adv.held (isTask isMember) begun'' known' y (by simp)
      rw [known', Option.some.injEq] at known₂
      have length' := congrArg List.length known₂
      simp only [List.length_append, List.length_cons, List.length_nil] at length length'
      obtain ⟨more, rfl⟩ := begins_in known₂ (by omega)
      refine ⟨y, more ++ [y₂], by rw [now, List.append_assoc]; rfl, ?_⟩
      rw [adv.plain held, adv.passed_same (isTask isMember) (by simp), same']
    · exact kept i isMember begun'' (by simp) (others _ self)

theorem forked_field {fork' : Nat → Contents} (origins : Origins R d owner fork below)
    (forks : ∀ r < R.regions, fork' r = fork r)
    (forked : ∀ t size, e = .parallelBegin t size → ∀ init x, d.label t = some (init ++ [x]) →
      fork' R.regions = d.plain x) :
    ∀ r < (R.after e).regions, (R.after e).IsOpen r → ((R.after e).task ((R.after e).memberOf r 0)).ended = false →
      ∃ init x, d'.label ((R.after e).region r).encountering = some (init ++ [x]) ∧ d'.plain x = fork' r ∧
        ∀ i < ((R.after e).region r).size, ((R.after e).task ((R.after e).memberOf r i)).begun = true →
          ∃ y rest, d'.label ((R.after e).memberOf r i) = some (init ++ y :: rest) ∧
            d'.plain y = (fork' r).bump ((R.after e).task ((R.after e).memberOf r i)).passed := by
  intro r isRegion isOpen live
  rcases Runtime.regions_after r isRegion with old | ⟨t, size, rfl, rfl⟩
  · have region := Runtime.region_after (e := e) old
    simp only [Runtime.after_memberOf old] at live ⊢
    rw [region.size, region.encountering, forks r old]
    obtain ⟨isOpen', live'⟩ := adv.open_before old live
    exact adv.forked_old origins old isOpen' live' live
  · obtain ⟨isTask, runs⟩ := Runtime.running_lt (by
      have enabled := adv.enabled
      simp only [Runtime.enabled, Bool.and_eq_true] at enabled
      exact enabled.1)
    obtain ⟨begun, -⟩ := Task.running_iff.mp runs
    have handled := adv.handled
    cases handled
    obtain ⟨label, known, -, mapped⟩ := adv.lined.label t isTask begun
    rcases List.eq_nil_or_concat' label with rfl | ⟨init, x, rfl⟩
    · rw [Runtime.place_live (Task.running_iff.mp runs).2.1, Task.strands] at mapped
      cases List.append_ne_nil_of_right_ne_nil _ (List.cons_ne_nil _ _) mapped.symm
    · refine ⟨init, x, ?_, (forked t size rfl init x known).symm, fun i isMember begun' => ?_⟩
      · rw [Runtime.fork_region, if_pos rfl]
        exact known
      · have bound : i < size := by
          rw [Runtime.fork_region, if_pos rfl] at isMember
          exact isMember
        rw [Runtime.fork_memberOf_new, Runtime.fork_member bound] at begun'
        cases begun'

theorem birth_held {c : Nat} (isTask : c < R.tasks) (begun : (R.task c).begun = true) :
    ∀ r ∈ R.birth d c, r < d.heap.next := by
  obtain ⟨label, known, holds, -⟩ := adv.lined.label c isTask begun
  intro r inside
  rw [Runtime.birth, known] at inside
  exact holds r (List.mem_of_mem_take inside)

theorem tick_after {c : Nat} (isTask : c < R.tasks) (kind : (R.task c).kind = .explicit) :
    (R.after e).tick d' c = R.tick d c := by
  rw [Runtime.tick, Runtime.tick, adv.births c isTask kind]
  cases last : (R.birth d c).getLast? with
  | none => rfl
  | some r =>
    have there := adv.birth_held isTask (adv.nested.explicit c isTask kind).2.1 r (List.mem_of_getLast? last)
    simp only [Option.map_some, Option.getD_some, adv.plain there]

theorem line_owned {c : Nat} {strand : Strand} (isTask : c < R.tasks) (begun : (R.task c).begun = true)
    (inside : strand ∈ (R.task c).line) : ∃ r < d.heap.next, owner r = strand := by
  obtain ⟨label, known, holds, mapped⟩ := adv.lined.label c isTask begun
  obtain ⟨rest, line⟩ := R.place_line c
  have member : strand ∈ label.map owner := by
    rw [mapped, line]
    exact List.mem_append_left _ inside
  obtain ⟨r, member, same⟩ := List.mem_map.mp member
  exact ⟨r, holds r member, same⟩

theorem parent_begun (origins : Origins R d owner fork below) {c : Nat} (isTask : c < R.tasks) (notRoot : c ≠ 0)
    (begun : (R.task c).begun = true) : (R.task (R.task c).parent).begun = true ∧
      ∃ strand, (R.task c).line.getLast? = some strand ∧ strand.task = (R.task c).parent := by
  obtain ⟨upper, strand, line, parent⟩ := adv.lineage.line_last isTask notRoot
  have last : (R.task c).line.getLast? = some strand := by rw [line, List.getLast?_concat]
  obtain ⟨r, bound, same⟩ := adv.line_owned isTask begun (List.mem_of_getLast? last)
  have past := (origins.past r bound).2.1
  rw [same, parent] at past
  exact ⟨past, strand, last, parent⟩

omit adv in
theorem explicit_ne_zero (nested : R.Nested) {c : Nat} (kind : (R.task c).kind = .explicit) : c ≠ 0 := by
  rintro rfl
  cases kind.symm.trans nested.root.1

/-- A task is created in the last segment of its parent, which no other one shares the strand with. -/
theorem birth_new {t r : Nat} {init : Label} (creates : e = .taskCreate t) (isTask : t < R.tasks)
    (begun : (R.task t).begun = true) (live : (R.task t).ended = false) (known : d.label t = some (init ++ [r]))
    (made : d'.label R.tasks = some (init ++ [r, d.heap.next])) :
    (R.after e).birth d' R.tasks = init ++ [r] ∧ (∀ z ∈ init, owner z ≠ owner r) ∧
      ((R.after e).task R.tasks).line.getLast? = some (owner r) ∧ ((R.after e).task R.tasks).parent = t := by
  subst creates
  have task : (R.after (.taskCreate t)).task R.tasks = Task.new .explicit t ((R.task t).strands t) R.accesses
      (R.task t).region ((R.task t).groups ++ (R.task t).openGroups) true (R.task t).known := by
    simp [Runtime.after]
  have mapped := (adv.lined.place_length isTask begun known).1
  rw [Runtime.place_live live, List.map_append, List.map_singleton] at mapped
  have line : ((R.after (.taskCreate t)).task R.tasks).line = init.map owner ++ [owner r] := by
    rw [task, mapped]
    rfl
  refine ⟨?_, fun z inside same => ?_, by rw [line, List.getLast?_concat], by rw [task]; rfl⟩
  · rw [Runtime.birth, made, line, Option.getD_some,
      show init ++ [r, d.heap.next] = (init ++ [r]) ++ [d.heap.next] by rw [List.append_assoc]; rfl]
    exact List.take_left' (by simp)
  · apply adv.lineage.strands_last isTask mapped.symm
    rw [← same]
    exact List.mem_map_of_mem inside

theorem tick_new {t r : Nat} {init : Label} (creates : e = .taskCreate t) (isTask : t < R.tasks)
    (begun : (R.task t).begun = true) (live : (R.task t).ended = false) (known : d.label t = some (init ++ [r]))
    (made : d'.label R.tasks = some (init ++ [r, d.heap.next])) :
    (R.after e).tick d' R.tasks = (d.plain r).taskcreate := by
  rw [Runtime.tick, (adv.birth_new creates isTask begun live known made).1, List.getLast?_concat, Option.map_some,
    Option.getD_some, adv.plain (adv.held isTask begun known r (by simp))]

theorem births_field (origins : Origins R d owner fork below) : ∀ c < (R.after e).tasks,
    ((R.after e).task c).kind = .explicit → ∀ label, d'.label ((R.after e).task c).parent = some label →
    ∀ z ∈ label, ((R.after e).task c).line.getLast? = some (owner' z) →
    (R.after e).tick d' c < (d'.plain z).taskcreate := by
  intro c bound kind label known z inside last
  have fixed := (Runtime.after_extends R e).fixed
  rcases Runtime.explicit_after adv.nested' adv.enabled bound kind with isTask | ⟨t, rfl, rfl⟩
  · have origin := fixed c isTask
    rw [origin.kind] at kind
    rw [origin.parent] at known
    rw [origin.line] at last
    rw [adv.tick_after isTask kind]
    obtain ⟨begun, -⟩ :=
      adv.parent_begun origins isTask (explicit_ne_zero adv.nested kind) (adv.nested.explicit c isTask kind).2.1
    have isParent : (R.task c).parent < R.tasks := (adv.nested.explicit c isTask kind).1.trans isTask
    have old : ∀ y label, d.label (R.task c).parent = some label → y ∈ label →
        (R.task c).line.getLast? = some (owner' y) → R.tick d c < (d'.plain y).taskcreate := by
      intro y label known member last
      have there := adv.held isParent begun known y member
      rw [adv.owners y there] at last
      rw [adv.plain there]
      exact origins.births c isTask kind label known y member last
    have version : ∀ y n label, d.label (R.task c).parent = some label → y ∈ label →
        (R.task c).line.getLast? = some (owner' n) → owner' n = owner y →
        (d.plain y).taskcreate ≤ (d'.plain n).taskcreate → R.tick d c < (d'.plain n).taskcreate := by
      intro y n label known member last same more
      exact Nat.lt_of_lt_of_le (origins.births c isTask kind label known y member (same ▸ last)) more
    cases adv.turn with
    | still plain labels next begun => exact old z label ((labels _).symm.trans known) inside last
    | @touch _ t upper dropped new plain isTask' begun live free actor moves low count same next renewal =>
      by_cases self : (R.task c).parent = t
      · subst self
        rw [moves.new, Option.some.injEq] at known
        subst known
        rcases List.mem_append.mp inside with above | here
        · exact old z _ moves.old (List.mem_append_left _ above) last
        · cases renewal with
          | gone => cases here
          | @version r rest kept counted =>
            rw [List.mem_singleton.mp here] at last ⊢
            apply version r _ _ moves.old (by simp) last kept
            rw [counted]
            exact Event.count_taskcreate ..
          | @unit dropped b owns opens units type =>
            rw [List.mem_singleton.mp here, owns] at last
            obtain ⟨r, there, same⟩ := adv.line_owned isTask (adv.nested.explicit c isTask kind).2.1 (List.mem_of_getLast? last)
            exact absurd same (origins.opens_fresh opens r there)
      · exact old z label ((moves.others _ self).symm.trans known) inside last
    | @create t init r isTask' begun live free before now made others next own kept plain counted =>
      by_cases self : (R.task c).parent = t
      · subst self
        rw [now, Option.some.injEq] at known
        subst known
        rcases List.mem_append.mp inside with above | here
        · exact old z _ before (List.mem_append_left _ above) last
        · rw [List.mem_singleton.mp here] at last ⊢
          apply version r _ _ before (by simp) last kept
          rw [counted]
          exact Event.count_taskcreate ..
      · exact old z label ((others _ self (Nat.ne_of_lt isParent)).symm.trans known) inside last
    | @enter ρ i upper isRegion isMember isOpen unbegun before now others next own plain =>
      have notMember : (R.task c).parent ≠ R.memberOf ρ i := by
        intro self
        rw [self, unbegun] at begun
        cases begun
      exact old z label ((others _ notMember).symm.trans known) inside last
    | @barrier ρ i upper x own isRegion isMember begun live idle moves low next kept bumped =>
      by_cases self : (R.task c).parent = R.memberOf ρ i
      · rw [self, moves.new, Option.some.injEq] at known
        subst known
        rcases List.mem_append.mp inside with above | here
        · exact old z _ (self ▸ moves.old) (List.mem_append_left _ above) last
        · rcases List.mem_cons.mp here with rfl | here
          · apply version x _ _ (self ▸ moves.old) (by simp) last kept
            rw [bumped]
            exact le_refl _
          · exact old z _ (self ▸ moves.old) (by simp [List.mem_singleton.mp here]) last
      · exact old z label ((moves.others _ self).symm.trans known) inside last
    | @join ρ upper own isRegion live closing settled before now others heap =>
      by_cases self : (R.task c).parent = (R.region ρ).encountering
      · obtain ⟨init, x, y, forker, rfl, same, same', owns⟩ := adv.join_shape origins isRegion live closing before
        rw [self, now, Option.some.injEq] at known
        subst known
        rcases List.mem_append.mp inside with above | here
        · exact old z _ (self ▸ forker) (List.mem_append_left _ above) last
        · have first := (adv.nested.bounds ρ isRegion).1
          have isFirst := adv.nested.member_lt isRegion first
          have begun₀ := adv.begun_closing isRegion first closing
          have there := adv.held isFirst begun₀ before y (by simp)
          rw [List.mem_singleton.mp here] at last ⊢
          apply version x _ _ (self ▸ forker) (by simp) last ((adv.owners y there).trans owns)
          rw [adv.plain there, same, same']
          exact le_refl _
      · exact old z label ((others _ self).symm.trans known) inside last
  · cases adv.turn with
    | still _ _ _ begun => exact absurd (begun R.tasks bound (adv.nested'.explicit _ bound kind).2.1).1 (lt_irrefl _)
    | touch _ _ _ _ _ _ _ _ count => exact absurd count (Nat.succ_ne_self _)
    | @create _ init r isTask begun live free before now made others next own kept plain counted =>
      have tick := adv.tick_new rfl isTask begun live before made
      obtain ⟨-, only, line, parent⟩ := adv.birth_new rfl isTask begun live before made
      rw [parent, now, Option.some.injEq] at known
      subst known
      rw [line, Option.some.injEq] at last
      rw [tick]
      rcases List.mem_append.mp inside with above | here
      · rw [adv.owners z (adv.held isTask begun before z (List.mem_append_left _ above))] at last
        exact absurd last.symm (only z above)
      · rw [List.mem_singleton.mp here, counted]
        exact Nat.lt_succ_self _

theorem apart_field (origins : Origins R d owner fork below) : ∀ c < (R.after e).tasks,
    ((R.after e).task c).kind = .explicit → ∀ c' < (R.after e).tasks, ((R.after e).task c').kind = .explicit → c ≠ c' →
    ((R.after e).task c).line = ((R.after e).task c').line → (R.after e).tick d' c ≠ (R.after e).tick d' c' := by
  have fixed := (Runtime.after_extends R e).fixed
  have later : ∀ t, e = .taskCreate t → ∀ c < R.tasks, (R.task c).kind = .explicit →
      ((R.after e).task R.tasks).line = (R.task c).line → (R.after e).tick d' c < (R.after e).tick d' R.tasks := by
    rintro t rfl c isTask kind same
    have grown : R.tasks < (R.after (.taskCreate t)).tasks := Nat.lt_succ_self _
    have begun' : ((R.after (.taskCreate t)).task R.tasks).begun = true := by simp [Runtime.after, Task.new]
    cases adv.turn with
    | still _ _ _ begun => exact absurd (begun R.tasks grown begun').1 (lt_irrefl _)
    | touch _ _ _ _ _ _ _ _ count => exact absurd count (Nat.succ_ne_self _)
    | @create _ init r isTask' begun live free before now made others next own kept plain counted =>
      have tick := adv.tick_new rfl isTask' begun live before made
      obtain ⟨-, -, line, -⟩ := adv.birth_new rfl isTask' begun live before made
      obtain ⟨-, strand, last, parent⟩ :=
        adv.parent_begun origins isTask (explicit_ne_zero adv.nested kind) (adv.nested.explicit c isTask kind).2.1
      rw [same, last, Option.some.injEq] at line
      have mapped := (adv.lined.place_length isTask' begun before).1
      have self : (owner r).task = t := by
        rw [Runtime.place_live live, List.map_append, List.map_singleton] at mapped
        exact Task.strands_self mapped.symm
      rw [line, self] at parent
      rw [adv.tick_after isTask kind, tick]
      exact origins.births c isTask kind _ (parent ▸ before) r (by simp) (by rw [last, line])
  intro c bound kind c' bound' kind' differ same
  rcases Runtime.explicit_after adv.nested' adv.enabled bound kind with isTask | ⟨t, creates, rfl⟩
  · rw [(fixed c isTask).kind] at kind
    rcases Runtime.explicit_after adv.nested' adv.enabled bound' kind' with isTask' | ⟨t, creates, rfl⟩
    · rw [(fixed c' isTask').kind] at kind'
      rw [(fixed c isTask).line, (fixed c' isTask').line] at same
      rw [adv.tick_after isTask kind, adv.tick_after isTask' kind']
      exact origins.apart c isTask kind c' isTask' kind' differ same
    · rw [(fixed c isTask).line] at same
      exact Nat.ne_of_lt (later t creates c isTask kind same.symm)
  · rcases Runtime.explicit_after adv.nested' adv.enabled bound' kind' with isTask' | ⟨t', creates', rfl⟩
    · rw [(fixed c' isTask').kind] at kind'
      rw [(fixed c' isTask').line] at same
      exact Nat.ne_of_gt (later t creates c' isTask' kind' same)
    · exact absurd rfl differ

structure Keeps (R : Runtime) (d : Detector) (owner : Nat → Strand) (e : Event) (fork fork' : Nat → Contents)
    (below below' : Strand → Contents) : Prop where
  forks : ∀ r < R.regions, fork' r = fork r
  belows : ∀ r < d.heap.next, below' (owner r) = below (owner r)
  forked : ∀ t size, e = .parallelBegin t size → ∀ init x, d.label t = some (init ++ [x]) → fork' R.regions = d.plain x

theorem origins (origins : Origins R d owner fork below) : ∃ fork' below',
    Origins (R.after e) d' owner' fork' below' ∧ Keeps R d owner e fork fork' below below' := by
  obtain ⟨fork', forks, forked⟩ : ∃ fork' : Nat → Contents, (∀ r < R.regions, fork' r = fork r) ∧
      ∀ t size, e = .parallelBegin t size → ∀ init x, d.label t = some (init ++ [x]) →
        fork' R.regions = d.plain x := by
    by_cases forks : ∃ t size init x, e = .parallelBegin t size ∧ d.label t = some (init ++ [x])
    · obtain ⟨t, size, init, x, rfl, known⟩ := forks
      refine ⟨Function.update fork R.regions (d.plain x), fun r bound => Function.update_of_ne (Nat.ne_of_lt bound) _ _,
        fun t' size' same init' x' known' => ?_⟩
      cases same
      rw [known, Option.some.injEq] at known'
      rw [Function.update_self, List.singleton_inj.mp (List.append_inj' known' rfl).2]
    · exact ⟨fork, fun _ _ => rfl, fun t size same init x known => absurd ⟨t, size, init, x, same, known⟩ forks⟩
  obtain ⟨below', belows, units⟩ : ∃ below' : Strand → Contents,
      (∀ r < d.heap.next, below' (owner r) = below (owner r)) ∧
      ∀ {t c upper}, d'.label t = some (upper ++ [d.heap.next]) → owner' d.heap.next = ⟨t, some c⟩ →
        (R.task t).Opens c → ∀ z, upper.getLast? = some z →
          below' ⟨t, some c⟩ = d.plain z := by
    by_cases opens : ∃ t c upper z, d'.label t = some (upper ++ [d.heap.next]) ∧ owner' d.heap.next = ⟨t, some c⟩ ∧
        (R.task t).Opens c ∧ upper.getLast? = some z
    · obtain ⟨t, c, upper, z, known, owns, opens, last⟩ := opens
      refine ⟨Function.update below ⟨t, some c⟩ (d.plain z), fun r bound =>
        Function.update_of_ne (origins.opens_fresh opens r bound) _ _, fun {t' c' upper'} known' owns' _ z' last' => ?_⟩
      rw [owns] at owns'
      cases owns'
      rw [known, Option.some.injEq] at known'
      rw [← (List.append_inj' known' rfl).1, last, Option.some.injEq] at last'
      rw [Function.update_self, last']
    · exact ⟨below, fun _ _ => rfl, fun {t c upper} known owns fresh z last =>
        absurd ⟨t, c, upper, z, known, owns, fresh, last⟩ opens⟩
  exact ⟨fork', below', ⟨adv.past_field origins, adv.suits_field origins,
    adv.chain_field origins forks belows units, adv.forked_field origins forks forked, adv.births_field origins,
    adv.apart_field origins⟩, forks, belows, forked⟩

end Advance

theorem System.origins_initial {s : System} (begun : System.initial = .ok s) (fork : Nat → Contents)
    (below : Strand → Contents) : Origins s.runtime s.detector (fun _ => ⟨0, none⟩) fork below := by
  cases begun
  refine ⟨fun r _ => ⟨Nat.zero_lt_one, rfl, fun c none => by cases none⟩, fun r bound => ?_, fun t isTask _ label known => ?_,
    fun r none => absurd none (Nat.not_lt_zero r), fun c isTask kind => ?_, fun c isTask kind => ?_⟩
  · cases Nat.lt_one_iff.mp bound
    exact ⟨rfl, rfl⟩
  · cases Nat.lt_one_iff.mp isTask
    cases known
    exact List.isChain_singleton _
  all_goals
    cases Nat.lt_one_iff.mp isTask
    cases kind

end Romp
