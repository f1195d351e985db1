import Mathlib.Data.Nat.Bitwise

namespace Bits

/-- A run of bits inside a machine word: `width` bits, the lowest of them at index `lo`. -/
structure Field where
  lo : Nat
  width : Nat
  deriving DecidableEq, Repr

namespace Field

variable {n : Nat}

def mask (f : Field) : BitVec n := (BitVec.allOnes f.width).setWidth n <<< f.lo

def get (f : Field) (word : BitVec n) : Nat := ((word &&& f.mask) >>> f.lo).toNat

def put (f : Field) (word : BitVec n) (x : Nat) : BitVec n :=
  (word &&& ~~~f.mask) ||| ((BitVec.ofNat n x <<< f.lo) &&& f.mask)

def Covers (f : Field) (i : Nat) : Prop := f.lo ≤ i ∧ i < f.lo + f.width

instance (f : Field) (i : Nat) : Decidable (f.Covers i) := inferInstanceAs (Decidable (_ ∧ _))

def Disjoint (f g : Field) : Prop := f.lo + f.width ≤ g.lo ∨ g.lo + g.width ≤ f.lo

instance (f g : Field) : Decidable (f.Disjoint g) := inferInstanceAs (Decidable (_ ∨ _))

theorem mask_bit (f : Field) (i : Nat) :
    (f.mask : BitVec n).getLsbD i = (decide (i < n) && decide (f.Covers i)) := by
  simp only [mask, BitVec.getLsbD_shiftLeft, BitVec.getLsbD_setWidth, BitVec.getLsbD_allOnes]
  have meaning : f.Covers i ↔ f.lo ≤ i ∧ i < f.lo + f.width := Iff.rfl
  by_cases bound : i < n
  · by_cases low : f.lo ≤ i
    · have inside : i - f.lo < n := by omega
      have shifted : i - f.lo < f.width ↔ f.Covers i := by rw [meaning]; omega
      simp [bound, inside, shifted, show ¬ i < f.lo by omega]
    · simp [meaning, low, show i < f.lo by omega]
  · simp [bound]

theorem put_bit (f : Field) (word : BitVec n) (x i : Nat) :
    (f.put word x).getLsbD i =
      (decide (i < n) && if f.Covers i then x.testBit (i - f.lo) else word.getLsbD i) := by
  simp only [put, BitVec.getLsbD_or, BitVec.getLsbD_and, BitVec.getLsbD_not, mask_bit,
    BitVec.getLsbD_shiftLeft, BitVec.getLsbD_ofNat]
  by_cases bound : i < n
  · by_cases covered : f.Covers i
    · have low : ¬ i < f.lo := by have := covered.1; omega
      have inside : i - f.lo < n := by omega
      simp [bound, covered, low, inside]
    · simp [bound, covered]
  · have high : word.getLsbD i = false := BitVec.getLsbD_of_ge _ _ (by omega)
    simp [bound]

theorem get_bit (f : Field) (word : BitVec n) (i : Nat) :
    (f.get word).testBit i = (decide (i < f.width) && word.getLsbD (f.lo + i)) := by
  have shifted : (f.get word).testBit i = ((word &&& f.mask) >>> f.lo).getLsbD i := rfl
  rw [shifted, BitVec.getLsbD_ushiftRight, BitVec.getLsbD_and, mask_bit]
  by_cases bound : f.lo + i < n
  · simp [bound, Covers, Bool.and_comm]
  · have high : word.getLsbD (f.lo + i) = false := BitVec.getLsbD_of_ge _ _ (by omega)
    simp [high]

theorem get_top (f : Field) (top : f.lo + f.width = n) (word : BitVec n) : f.get word = (word >>> f.lo).toNat := by
  apply Nat.eq_of_testBit_eq
  intro i
  rw [get_bit]
  change _ = (word >>> f.lo).getLsbD i
  rw [BitVec.getLsbD_ushiftRight]
  by_cases inside : i < f.width
  · simp [inside]
  · simp [inside, BitVec.getLsbD_of_ge word (f.lo + i) (by omega)]

theorem get_lt (f : Field) (word : BitVec n) : f.get word < 2 ^ f.width := by
  apply Nat.lt_pow_two_of_testBit
  intro i high
  simp [get_bit, show ¬ i < f.width by omega]

theorem get_put (f : Field) (fits : f.lo + f.width ≤ n) (word : BitVec n) (x : Nat) :
    f.get (f.put word x) = x % 2 ^ f.width := by
  apply Nat.eq_of_testBit_eq
  intro i
  rw [get_bit, put_bit, Nat.testBit_mod_two_pow]
  by_cases inside : i < f.width
  · have covered : f.Covers (f.lo + i) := ⟨by omega, by omega⟩
    simp [inside, covered, show f.lo + i < n by omega]
  · simp [inside]

theorem get_put_disjoint (f g : Field) (apart : f.Disjoint g) (word : BitVec n) (x : Nat) :
    g.get (f.put word x) = g.get word := by
  apply Nat.eq_of_testBit_eq
  intro i
  rw [get_bit, get_bit, put_bit]
  by_cases inside : i < g.width
  · have outside : ¬ f.Covers (g.lo + i) := by
      rintro ⟨low, high⟩
      rcases apart with apart | apart <;> omega
    by_cases bound : g.lo + i < n
    · simp [inside, outside, bound]
    · have high : word.getLsbD (g.lo + i) = false := BitVec.getLsbD_of_ge _ _ (by omega)
      simp [bound, high]
  · simp [inside]

theorem put_put (f : Field) (word : BitVec n) (x y : Nat) : f.put (f.put word x) y = f.put word y := by
  apply BitVec.eq_of_getLsbD_eq
  intro i bound
  rw [put_bit, put_bit, put_bit]
  by_cases covered : f.Covers i <;> simp [covered, bound]

theorem put_eq_self_iff (f : Field) (fits : f.lo + f.width ≤ n) (word : BitVec n) {x : Nat}
    (small : x < 2 ^ f.width) : f.put word x = word ↔ f.get word = x := by
  constructor
  · intro same
    have read := f.get_put fits word x
    rwa [same, Nat.mod_eq_of_lt small] at read
  · intro read
    apply BitVec.eq_of_getLsbD_eq
    intro i bound
    rw [put_bit, ← read, get_bit]
    by_cases covered : f.Covers i
    · obtain ⟨low, high⟩ := covered
      simp [Covers, low, high, bound, show i - f.lo < f.width by omega, show f.lo + (i - f.lo) = i by omega]
    · simp [covered, bound]

theorem bit_of_get_eq (f : Field) {left right : BitVec n} (same : f.get left = f.get right)
    {i : Nat} (covered : f.Covers i) : left.getLsbD i = right.getLsbD i := by
  have bits := congrArg (fun x => x.testBit (i - f.lo)) same
  obtain ⟨low, high⟩ := covered
  simpa [get_bit, show i - f.lo < f.width by omega, show f.lo + (i - f.lo) = i by omega] using bits

/-- Two words are equal as soon as they agree on fields that cover all their bits. -/
theorem eq_of_get_eq (fields : List Field) (cover : ∀ i < n, ∃ f ∈ fields, f.Covers i)
    {left right : BitVec n} (same : ∀ f ∈ fields, f.get left = f.get right) : left = right := by
  apply BitVec.eq_of_getLsbD_eq
  intro i bound
  obtain ⟨f, member, covered⟩ := cover i bound
  exact bit_of_get_eq f (same f member) covered

theorem or_mask (f : Field) (word : BitVec n) : word ||| f.mask = f.put word (2 ^ f.width - 1) := by
  apply BitVec.eq_of_getLsbD_eq
  intro i bound
  rw [BitVec.getLsbD_or, mask_bit, put_bit]
  by_cases covered : f.Covers i
  · have inside : i - f.lo < f.width := by have := covered.1; have := covered.2; omega
    simp [bound, covered, Nat.testBit_two_pow_sub_one, inside]
  · simp [bound, covered]

theorem and_mask_eq_zero (f : Field) (word : BitVec n) : word &&& f.mask = 0 ↔ f.get word = 0 := by
  constructor
  · intro empty
    simp [get, empty]
  · intro zero
    apply BitVec.eq_of_getLsbD_eq
    intro i bound
    rw [BitVec.getLsbD_and, mask_bit]
    by_cases covered : f.Covers i
    · have bit := bit_of_get_eq f (show f.get word = f.get 0 by simpa [get] using zero) covered
      rw [show (0 : BitVec n).getLsbD i = false by simp] at bit
      simp [bit]
    · simp [covered]

@[simp] theorem get_zero (f : Field) : f.get (0 : BitVec n) = 0 := by simp [get]

end Field

def merged (values : List Nat) : Nat := values.foldr (· ||| ·) 0

theorem or_merged {values : List Nat} {value : Nat} (member : value ∈ values) :
    value ||| merged values = merged values := by
  induction values with
  | nil => cases member
  | cons first values ih =>
    rw [merged, List.foldr_cons, ← merged]
    rcases List.mem_cons.mp member with rfl | later
    · rw [← Nat.or_assoc, Nat.or_self]
    · rw [← Nat.or_assoc, Nat.or_comm value, Nat.or_assoc, ih later]

theorem merged_or {values : List Nat} {bound : Nat} (among : ∀ value ∈ values, value ||| bound = bound) :
    merged values ||| bound = bound := by
  induction values with
  | nil => exact Nat.zero_or bound
  | cons first values ih =>
    have here := among first (List.mem_cons_self ..)
    have later := ih fun value member => among value (List.mem_cons_of_mem _ member)
    rw [merged, List.foldr_cons, ← merged, Nat.or_assoc, later, here]

/-- Values that are or-ed together give the latest of them when its bits are a superset of all the others. -/
theorem merged_eq_iff {values : List Nat} {latest : Nat} (among : values ≠ [] → latest ∈ values) :
    merged values = latest ↔
      (∀ value ∈ values, value ||| latest = latest) ∧ (values = [] → latest = 0) := by
  constructor
  · intro same
    refine ⟨fun value member => ?_, fun none => ?_⟩
    · rw [← same]
      exact or_merged member
    · rw [← same, none]
      rfl
  · rintro ⟨within, none⟩
    by_cases empty : values = []
    · rw [none empty, empty]
      rfl
    · rw [← or_merged (among empty), Nat.or_comm]
      exact merged_or within

end Bits
