import Romp.Label.Contents
import Romp.Label.Label

namespace Romp

namespace Heap

def Extends (h h' : Heap) : Prop := h.next ≤ h'.next ∧ ∀ x < h.next, h'.objects x = h.objects x

theorem Extends.refl (h : Heap) : h.Extends h := ⟨le_refl _, fun _ _ => rfl⟩

theorem Extends.trans {h h' h'' : Heap} (first : h.Extends h') (second : h'.Extends h'') : h.Extends h'' :=
  ⟨first.1.trans second.1, fun x bound =>
    (second.2 x (Nat.lt_of_lt_of_le bound first.1)).trans (first.2 x bound)⟩

theorem alloc_extends (h : Heap) (s : Segment) : h.Extends (h.alloc s).1 :=
  ⟨Nat.le_succ _, fun _ bound => Function.update_of_ne (Nat.ne_of_lt bound) _ _⟩

theorem alloc_read (h : Heap) (s : Segment) : (h.alloc s).1.objects h.next = s :=
  Function.update_self ..

def Holds (h : Heap) (label : Label) : Prop := ∀ x ∈ label, x < h.next

theorem Holds.extend {h h' : Heap} {label : Label} (holds : h.Holds label) (extend : h.Extends h') :
    h'.Holds label := fun x member => Nat.lt_of_lt_of_le (holds x member) extend.1

theorem Holds.read {h h' : Heap} {label : Label} (holds : h.Holds label) (extend : h.Extends h') :
    h'.read label = h.read label :=
  List.map_congr_left fun x member => extend.2 x (holds x member)

theorem read_append (h : Heap) (label label' : Label) : h.read (label ++ label') = h.read label ++ h.read label' :=
  List.map_append

end Heap

namespace Segment

/-- The record of a segment without the two marks that the end of a synchronisation leaves. -/
def plain (s : Segment) : Contents := { s.contents with taskwaited := false, taskGroupSync := false }

def markTaskwaited (phase : Nat) (s : Segment) : Segment := s.setTaskwaited.setTaskwaitPhase phase

theorem contents_markTaskwaited (phase : Nat) (s : Segment) :
    (s.markTaskwaited phase).contents = { s.contents with taskwaited := true } :=
  s.contents_setTaskwaited

theorem plain_markTaskwaited (phase : Nat) (s : Segment) : (s.markTaskwaited phase).plain = s.plain := by
  rw [plain, contents_markTaskwaited, plain]

theorem plain_setTaskGroupSync (s : Segment) : s.setTaskGroupSync.plain = s.plain := by
  rw [plain, contents_setTaskGroupSync, plain]

theorem markTaskwaited_twice (phase : Nat) (s : Segment) :
    (s.markTaskwaited phase).markTaskwaited phase = s.markTaskwaited phase := by
  simp only [markTaskwaited, setTaskwaited, setTaskwaitPhase, Segment.mk.injEq, and_true, true_and]
  constructor
  · rw [BitVec.or_assoc, BitVec.or_self]
  · apply BitVec.eq_of_getLsbD_eq
    intro i bound
    simp only [BitVec.getLsbD_or, BitVec.getLsbD_and]
    grind

theorem setTaskGroupSync_twice (s : Segment) : s.setTaskGroupSync.setTaskGroupSync = s.setTaskGroupSync := by
  simp only [setTaskGroupSync, Segment.mk.injEq, and_true]
  rw [BitVec.or_assoc, BitVec.or_self]

end Segment

namespace Heap

def mark (h : Heap) (refs : List Nat) (f : Segment → Segment) : Heap :=
  { h with objects := fun r => if r ∈ refs then f (h.objects r) else h.objects r }

theorem mark_nil (h : Heap) (f : Segment → Segment) : h.mark [] f = h := by
  simp [mark]

theorem mark_objects (h : Heap) (refs : List Nat) (f : Segment → Segment) (r : Nat) :
    (h.mark refs f).objects r = if r ∈ refs then f (h.objects r) else h.objects r := rfl

/-- The objects may be changed one after the other, the same one several times. -/
theorem modify_mark (h : Heap) (r : Nat) (refs : List Nat) {f : Segment → Segment}
    (twice : ∀ s, f (f s) = f s) : (h.modify r f).mark refs f = h.mark (r :: refs) f := by
  simp only [mark, modify, Heap.mk.injEq, and_true]
  funext x
  by_cases self : x = r
  · subst self
    simp [twice]
  · simp [self]

/-- The objects that were there keep their records, but for the marks. -/
structure Grows (h h' : Heap) : Prop where
  next : h.next ≤ h'.next
  plain : ∀ r < h.next, (h'.objects r).plain = (h.objects r).plain

theorem Grows.refl (h : Heap) : h.Grows h := ⟨le_refl _, fun _ _ => rfl⟩

theorem Grows.trans {h h' h'' : Heap} (first : h.Grows h') (second : h'.Grows h'') : h.Grows h'' :=
  ⟨first.next.trans second.next, fun r bound =>
    (second.plain r (Nat.lt_of_lt_of_le bound first.next)).trans (first.plain r bound)⟩

theorem Extends.grows {h h' : Heap} (extend : h.Extends h') : h.Grows h' :=
  ⟨extend.1, fun r bound => by rw [extend.2 r bound]⟩

theorem mark_grows (h : Heap) (refs : List Nat) {f : Segment → Segment} (plain : ∀ s, (f s).plain = s.plain) :
    h.Grows (h.mark refs f) := by
  refine ⟨le_refl _, fun r _ => ?_⟩
  rw [mark_objects]
  split
  · exact plain _
  · rfl

theorem Holds.grow {h h' : Heap} {label : Label} (holds : h.Holds label) (grows : h.Grows h') : h'.Holds label :=
  fun x member => Nat.lt_of_lt_of_le (holds x member) grows.next

end Heap

end Romp
