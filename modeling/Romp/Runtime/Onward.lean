import Romp.Runtime.Brackets
import Romp.Runtime.Iterations

namespace Romp

namespace Construct

def isLoop : Construct → Bool
  | loop .. => true
  | _ => false

/-- An iteration or a section: not a worksharing construct before its first unit, and not a single. -/
def isUnit : Construct → Bool
  | loop _ _ (some _) => true
  | sections _ (_ + 1) => true
  | _ => false

/-- A loop or a sections construct, in one of its units or before the first one. -/
def isShared : Construct → Bool
  | loop .. | sections .. => true
  | _ => false

theorem marked_unit {c : Construct} (unit : c.isUnit = true) (loop : c.isLoop = true) : c.marked = false := by
  cases c with
  | loop number turn id => cases id <;> first | rfl | cases unit
  | _ => cases loop

end Construct

def Runtime.InConstruct (R : Runtime) (t n : Nat) : Prop := ∃ c, (R.task t).body = some c ∧ c.number = some n

/-- A step with which a task goes on: it passes no barrier of its own region, and it begins and ends no ordered section
    in the construct of the given number. -/
structure Onward (t n : Nat) (s : System) (e : Event) : Prop where
  barrier : e ≠ .barrierEnd t
  ordered : s.runtime.InConstruct t n → e ≠ .orderedBegin t ∧ e ≠ .orderedEnd t

def ForksInUnits (t : Nat) (s : System) (e : Event) : Prop :=
  ∀ size, e = .parallelBegin t size → (s.runtime.task t).body ≠ none

namespace Tally

variable {k : Tally} {R : Runtime} {t : Nat} {e : Event} {body : Option Construct}

theorem loops_next : k.loops ≤ (k.next R t body e).loops := by
  rw [next]
  split
  · cases e with
    | workEnd p =>
      simp only [count]
      split
      · split
        · exact le_refl _
        · exact Nat.le_succ _
      · exact le_refl _
    | implicitEnd m =>
      simp only [count]
      split
      · split <;> exact le_refl _
      · exact le_refl _
    | taskCreate p | taskwaitEnd p | taskgroupBegin p | taskgroupEnd p | orderedBegin p | orderedEnd p =>
      simp only [count]
      split <;> exact le_refl _
    | _ => exact le_refl _
  · exact le_refl _

theorem barriers_next (noJoin : ∀ m r, e = .implicitEnd m → (R.task m).kind = .implicit r 0 →
    ((R.after e).task t).body = body → (R.region r).encountering ≠ t) : (k.next R t body e).barriers = k.barriers := by
  rw [next]
  split
  · rename_i same
    cases e with
    | workEnd p =>
      simp only [count]
      split
      · split <;> rfl
      · rfl
    | implicitEnd m =>
      simp only [count]
      split
      · rename_i r kind
        rw [if_neg (noJoin m r rfl kind same)]
      · rfl
    | taskCreate p | taskwaitEnd p | taskgroupBegin p | taskgroupEnd p | orderedBegin p | orderedEnd p =>
      simp only [count]
      split <;> rfl
    | _ => rfl
  · rfl

/-- Taskgroups that are open already may be counted from outside. -/
theorem apply_groups (small : ∀ s : Segment, s.plain.taskGroupId < 2 ^ 16 ∧ s.plain.taskGroupLevel < 2 ^ 16) (s : Segment)
    (g : Nat) : ∃ z : Contents, apply { groups := g } z = s.plain ∧ z.loopCount = s.plain.loopCount ∧
      z.span = s.plain.span ∧ z.offset = s.plain.offset := by
  obtain ⟨id, level⟩ := small s
  refine ⟨{ s.plain with
    taskGroupId := (s.plain.taskGroupId + (2 ^ 16 - g % 2 ^ 16)) % 2 ^ 16
    taskGroupLevel := (s.plain.taskGroupLevel + (2 ^ 16 - g % 2 ^ 16)) % 2 ^ 16 }, ?_, rfl, rfl, rfl⟩
  have offset := plain_offset_lt s
  have back : ∀ x : Nat, x < 2 ^ 16 → ((x + (2 ^ 16 - g % 2 ^ 16)) % 2 ^ 16 + (g + 0)) % 2 ^ 16 = x := by omega
  simp only [apply, Nat.zero_mul, Nat.add_zero, Nat.mod_eq_of_lt offset]
  have backId := back _ id
  have backLevel := back _ level
  simp only [Nat.add_zero] at backId backLevel
  rw [backId, backLevel]

end Tally

namespace Runtime

variable {R : Runtime} {t : Nat} {e : Event}

theorem dispatch_kind {id : BitVec 64} {c c' : Construct} (lineage : R.Lineage)
    (lineage' : (R.after (.dispatch t id)).Lineage)
    (enabled : R.enabled (.dispatch t id) = true) (isTask : t < R.tasks) (units : (R.task t).units = [c])
    (units' : ((R.after (.dispatch t id)).task t).units = [c']) : c'.isShared = true ∧ c'.isLoop = c.isLoop := by
  have stack := constructs_after enabled isTask
  simp only [Runtime.enabled, Bool.and_eq_true] at enabled
  have inside := enabled.2
  have moves : ∀ {a a' rest}, (R.task t).constructs = a :: rest →
      ((R.after (.dispatch t id)).task t).constructs = a' :: rest →
      a.number.isSome = true → a'.number.isSome = true → a = c ∧ a' = c' := by
    intro a a' rest top top' number number'
    have same := (lineage.units_of_top top number).symm.trans units
    have same' := (lineage'.units_of_top top' number').symm.trans units'
    exact ⟨(List.cons.inj same).1, (List.cons.inj same').1⟩
  split at inside
  · rename_i r n turn last rest region constructs
    simp only [Event.stack, if_true, constructs] at stack
    obtain ⟨rfl, rfl⟩ := moves constructs stack rfl rfl
    exact ⟨rfl, rfl⟩
  · rename_i r n unit rest region constructs
    simp only [Event.stack, if_true, constructs] at stack
    obtain ⟨rfl, rfl⟩ := moves constructs stack rfl rfl
    exact ⟨rfl, rfl⟩
  · cases inside

def NoneForked (R : Runtime) (t : Nat) : Prop :=
  (R.task t).body = none → ∀ r, .parallel r ∉ (R.task t).constructs

theorem noneForked_after (none : R.NoneForked t) (stacked : Construct.Stacked (R.task t).constructs)
    (enabled : R.enabled e = true) (isTask : t < R.tasks)
    (forks : ∀ size, e = .parallelBegin t size → (R.task t).body ≠ .none) : (R.after e).NoneForked t := by
  have stack := constructs_after enabled isTask
  intro body r inside
  rw [Task.body] at body
  rw [stack] at body inside
  have keeps : (R.task t).constructs.find? (fun c => c.number.isSome) = .none → .parallel r ∉ (R.task t).constructs :=
    fun same => none same r
  have enter : ∀ c : Construct, c.number = .none → c ≠ .parallel r →
      (c :: (R.task t).constructs).find? (fun c => c.number.isSome) = .none → .parallel r ∈ c :: (R.task t).constructs → False := by
    intro c plain other body inside
    rw [List.find?_cons_of_neg (by rw [plain]; exact Bool.false_ne_true)] at body
    rcases List.mem_cons.mp inside with self | inside
    · exact other self.symm
    · exact keeps body inside
  have leave : (R.task t).constructs.tail.find? (fun c => c.number.isSome) = .none →
      .parallel r ∈ (R.task t).constructs.tail → False := by
    intro body inside
    cases top : (R.task t).constructs with
    | nil =>
      rw [top] at inside
      cases inside
    | cons c rest =>
      rw [top, List.tail_cons] at body inside
      cases number : c.number with
      | none =>
        refine keeps ?_ (by rw [top]; exact List.mem_cons_of_mem _ inside)
        rw [top, List.find?_cons_of_neg (by rw [number]; exact Bool.false_ne_true)]
        exact body
      | some k =>
        have groups := stacked [] c rest top (by rw [number]; rfl)
        cases List.all_eq_true.mp groups _ inside
  cases e with
  | parallelBegin p size =>
    rw [Event.stack] at body inside
    split at body
    · rename_i self
      subst self
      rw [List.find?_cons_of_neg Bool.false_ne_true] at body
      exact forks size rfl body
    · rename_i other
      rw [if_neg other] at inside
      exact keeps body inside
  | taskgroupBegin p | orderedBegin p =>
    rw [Event.stack] at body inside
    split at body
    · rename_i self
      rw [if_pos self] at inside
      exact enter _ rfl (by simp) body inside
    · rename_i other
      rw [if_neg other] at inside
      exact keeps body inside
  | parallelEnd p | taskgroupEnd p | workEnd p | orderedEnd p =>
    rw [Event.stack] at body inside
    split at body
    · rename_i self
      rw [if_pos self] at inside
      exact leave body inside
    · rename_i other
      rw [if_neg other] at inside
      exact keeps body inside
  | workBegin p work executor =>
    rw [Event.stack] at body inside
    split at body
    · rw [find_unit (by cases work <;> rfl)] at body
      cases body
    · rename_i other
      rw [if_neg other] at inside
      exact keeps body inside
  | dispatch p id =>
    simp only [Event.stack] at body inside
    split at body
    · rename_i self
      rw [if_pos self] at inside
      split at body
      · rw [find_unit rfl] at body
        cases body
      · rw [find_unit rfl] at body
        cases body
      · rename_i noLoop noSections
        split at inside
        · rename_i top
          exact noLoop _ _ _ _ top
        · rename_i top
          exact noSections _ _ _ top
        · exact keeps body inside
    · rename_i other
      rw [if_neg other] at inside
      exact keeps body inside
  | _ => exact keeps body inside

/-- Where a task is that has been in a unit of a construct: in that unit or a later one, or behind the construct. -/
inductive Beyond (R : Runtime) (t n : Nat) (c : Construct) (loops : Nat) : Prop
  | within {c'} (units : (R.task t).units = [c']) (number : c'.number = some n) (shared : c'.isShared = true)
      (kind : c'.isLoop = c.isLoop) (later : c' = c ∨ c.Before c') : Beyond R t n c loops
  | behind (counted : 0 < loops) (others : ∀ c' ∈ (R.task t).units, c'.number ≠ some n) : Beyond R t n c loops

theorem beyond_after {n : Nat} {c : Construct} {k : Tally} (beyond : R.Beyond t n c k.loops) (met : n < (R.task t).works)
    (unit : c.number = some n) (issued : R.Issued t c) {r i : Nat} (member : (R.task t).kind = .implicit r i)
    (nested : R.Nested) (lineage : R.Lineage) (enabled : R.enabled e = true) (isTask : t < R.tasks) :
    (R.after e).Beyond t n c (k.next R t none e).loops := by
  have lineage' := lineage.after nested enabled
  have grows : 0 < k.loops → 0 < (k.next R t none e).loops := fun counted => Nat.lt_of_lt_of_le counted Tally.loops_next
  have turns := units_after lineage enabled isTask
  cases beyond with
  | within units number shared kind later =>
    cases turns with
    | same same => exact .within (same.trans units) number shared kind later
    | work empty => cases units.symm.trans empty
    | @done c₀ before after =>
      obtain rfl := (List.cons.inj (before.symm.trans units)).1
      refine .behind ?_ (by rw [after]; exact List.forall_mem_nil _)
      have body : ((R.after (.workEnd t)).task t).body = none := by rw [Task.body_units, after]; rfl
      simp only [Runtime.enabled, Bool.and_eq_true, decide_eq_true_eq] at enabled
      have top := enabled.2
      rw [Tally.next, if_pos body]
      simp only [Tally.count, if_true]
      split
      · rename_i constructs
        rw [lineage.units_of_top constructs rfl, List.cons.injEq] at units
        rw [← units.1] at shared
        cases shared
      · exact Nat.succ_pos _
    | @next id c₀ c₁ j before after number₀ number₁ higher =>
      obtain rfl := (List.cons.inj (before.symm.trans units)).1
      obtain ⟨shared', kind'⟩ := dispatch_kind lineage lineage' enabled isTask before after
      have number' := number₁.trans (number₀.symm.trans number)
      have others := (dispatch_issues nested lineage' enabled isTask after).2 c r i n member unit number' issued
      refine .within after number' shared' (kind'.trans kind) (.inr ⟨?_, others⟩)
      rcases later with rfl | later
      · exact higher
      · exact later.1.trans higher
  | behind counted others =>
    cases turns with
    | same same => exact .behind (grows counted) (by rw [same]; exact others)
    | work empty after number =>
      refine .behind (grows counted) fun c' inside same => ?_
      rw [after, List.mem_singleton] at inside
      rw [inside, number, Option.some.injEq] at same
      omega
    | done before after => exact .behind (grows counted) (by rw [after]; exact List.forall_mem_nil _)
    | @next id c₀ c₁ j before after number₀ number₁ =>
      refine .behind (grows counted) fun c' inside same => ?_
      rw [after, List.mem_singleton] at inside
      subst inside
      exact others c₀ (by rw [before]; exact List.mem_singleton_self _) (number₀.trans (number₁.symm.trans same))

end Runtime

def Detector.Unphased (d : Detector) (owner : Nat → Strand) (t n rank : Nat) : Prop :=
  ∀ r < d.heap.next, ∀ c, owner r = ⟨t, some c⟩ → c.number = some n → rank < c.rank → (d.plain r).phase = 0

theorem Event.count_phase {e : Event} (z : Contents) (unordered : ∀ p, e ≠ .orderedBegin p ∧ e ≠ .orderedEnd p) :
    (e.count z).phase = z.phase := by
  cases e with
  | orderedBegin p => exact absurd rfl (unordered p).1
  | orderedEnd p => exact absurd rfl (unordered p).2
  | _ => rfl

namespace Advance

variable {R : Runtime} {d d' : Detector} {owner owner' : Nat → Strand} {e : Event} (adv : Advance R d d' owner owner' e)

include adv

theorem ordered_owner {p r t : Nat} {c : Construct} (orders : e = .orderedBegin p ∨ e = .orderedEnd p)
    (bound : r < d'.heap.next) (new : ¬r < d.heap.next) (owns : owner' r = ⟨t, some c⟩) :
    p = t ∧ (R.task t).body = some c := by
  have handled : d.mutateLabel p mutateOrderSection = .ok d' := by
    rcases orders with rfl | rfl <;> exact adv.handled
  have running : R.running p = true := by
    have enabled := adv.enabled
    rcases orders with rfl | rfl <;>
    · simp only [Runtime.enabled, Bool.and_eq_true] at enabled
      exact enabled.1
  obtain ⟨init, r₀, s, relabels, -, heap⟩ := Detector.handle_ordered handled
  obtain rfl : r = d.heap.next := by
    rw [heap] at bound
    exact Nat.le_antisymm (Nat.lt_succ_iff.mp bound) (Nat.not_lt.mp new)
  obtain ⟨isTask, runs⟩ := Runtime.running_lt running
  obtain ⟨begun, live, -⟩ := Task.running_iff.mp runs
  have plain : ¬e.Creates ∧ ¬e.Bounds := by rcases orders with rfl | rfl <;> exact ⟨id, id⟩
  have lives := Runtime.lives_after (R := R) plain.2
  have isTask' : p < (R.after e).tasks := by rw [(Runtime.after_counts (R := R) plain.1).1]; exact isTask
  have units : ((R.after e).task p).units = (R.task p).units := by
    rcases orders with rfl | rfl <;>
    · cases Runtime.units_after adv.lineage adv.enabled isTask with
      | same units => exact units
  have place := Runtime.place_after isTask units fun _ => lives.ended p isTask
  rw [Runtime.place_live live] at place
  have last : ∀ {above : List Strand} {strand : Strand}, (R.task p).strands p = above ++ [strand] →
      strand = ⟨t, some c⟩ := by
    intro above strand strands
    rw [← owns]
    exact (adv.lined'.last_owner isTask' ((lives.begun p isTask).trans begun) relabels.new (place.trans strands)).2.symm
  rw [Task.body_units]
  have short := (adv.lineage.units p).1
  cases inUnit : (R.task p).units with
  | nil => cases last (Task.strands_plain inUnit p)
  | cons c' rest =>
    rw [inUnit, List.length_cons] at short
    obtain rfl := List.eq_nil_of_length_eq_zero (show rest.length = 0 by omega)
    have strands := Task.strands_unit inUnit p
    rw [List.append_cons] at strands
    cases last strands
    exact ⟨rfl, by rw [inUnit]; rfl⟩

theorem unphased {t n rank : Nat} (unphased : d.Unphased owner t n rank)
    (ordered : R.InConstruct t n → e ≠ .orderedBegin t ∧ e ≠ .orderedEnd t) : d'.Unphased owner' t n rank := by
  intro r bound c owns number later
  by_cases old : r < d.heap.next
  · rw [adv.owners r old] at owns
    rw [adv.plain old]
    exact unphased r old c owns number later
  · rcases adv.fresh_unit bound old owns with ⟨r₀, there, kept, counted | counted⟩ | ⟨-, phase⟩
    · have before := unphased r₀ there c kept number later
      rw [counted, Event.count_phase, before]
      intro p
      have never : ¬(e = .orderedBegin p ∨ e = .orderedEnd p) := by
        intro orders
        obtain ⟨rfl, body⟩ := adv.ordered_owner orders bound old owns
        have none := ordered ⟨c, body, number⟩
        exact orders.elim none.1 none.2
      exact not_or.mp never
    · rw [counted]
      exact unphased r₀ there c kept number later
    · exact phase

end Advance

end Romp
