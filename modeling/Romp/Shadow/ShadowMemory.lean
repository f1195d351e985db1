import Mathlib.Data.Nat.Bitwise

namespace Romp

inductive Granularity where
  | eByteLevel
  | eWordLevel
  | eLongWordLevel
  deriving DecidableEq

def Granularity.lowZeros : Granularity → BitVec 64
  | .eByteLevel => 0
  | .eWordLevel => 2
  | .eLongWordLevel => 3

def CANONICAL_FORM_MASK : BitVec 64 := 0x0000ffffffffffff

/-- What the constructor of `ShadowMemory` computes of its parameters. -/
structure ShadowMemory where
  numEntriesPerPage : BitVec 64
  shadowPageIndexMask : BitVec 64
  pageOffsetShift : BitVec 64
  numL1PageTableEntries : BitVec 64
  numL2PageTableEntries : BitVec 64
  l1PageTableShift : BitVec 64
  l2PageTableShift : BitVec 64
  l2IndexMask : BitVec 64

namespace ShadowMemory

/-- The shifts of the constructor are those of an `int`, which is widened when it is stored. -/
def intShift (bits : BitVec 64) : BitVec 32 := (1 : BitVec 32) <<< bits

def genPageIndexMask (numBits lowZeros : BitVec 64) : BitVec 64 := (intShift numBits - intShift lowZeros).signExtend 64

def new (l1PageTableBits l2PageTableBits numMemAddrBits : BitVec 64) (granularity : Granularity) : ShadowMemory :=
  let l1PageTableShift := numMemAddrBits - l1PageTableBits
  let l2PageTableShift := l1PageTableShift - l2PageTableBits
  { pageOffsetShift := granularity.lowZeros
    l1PageTableShift
    l2PageTableShift
    l2IndexMask := (intShift l2PageTableBits - 1).signExtend 64
    numEntriesPerPage := (intShift (l2PageTableShift - granularity.lowZeros)).signExtend 64
    shadowPageIndexMask := genPageIndexMask l2PageTableShift granularity.lowZeros
    numL1PageTableEntries := (intShift l1PageTableBits).signExtend 64
    numL2PageTableEntries := (intShift l2PageTableBits).signExtend 64 }

def default : ShadowMemory := new 20 12 48 .eByteLevel

variable (m : ShadowMemory) (address : BitVec 64)

def getL1PageIndex : BitVec 64 := (address &&& CANONICAL_FORM_MASK) >>> m.l1PageTableShift
def getL2PageIndex : BitVec 64 := (address >>> m.l2PageTableShift) &&& m.l2IndexMask
def getPageIndex : BitVec 64 := (address &&& m.shadowPageIndexMask) >>> m.pageOffsetShift

end ShadowMemory

/-- A split of the 48 bits of an address into the indices of the two tables and of the page, each of which an `int`
    can be shifted by, with a granularity that is not wider than a page. -/
structure Split where
  l1 : Nat
  l2 : Nat
  page : Nat
  granularity : Granularity
  whole : l1 + l2 + page = 48
  l1Bits : l1 < 31
  l2Bits : l2 < 31
  pageBits : page < 31
  fits : granularity.lowZeros.toNat ≤ page

namespace Split

variable (s : Split)

def low : Nat := s.granularity.lowZeros.toNat

def memory : ShadowMemory := .new (BitVec.ofNat 64 s.l1) (BitVec.ofNat 64 s.l2) 48 s.granularity

end Split

namespace ShadowMemory

theorem intShift_toNat {bits : BitVec 64} (small : bits.toNat < 31) : (intShift bits).toNat = 2 ^ bits.toNat := by
  have less : 2 ^ bits.toNat < 2 ^ 32 := Nat.pow_lt_pow_right (by omega) (by omega)
  rw [intShift, BitVec.shiftLeft_eq', BitVec.toNat_shiftLeft, Nat.shiftLeft_eq]
  have one : (1 : BitVec 32).toNat = 1 := rfl
  rw [one, Nat.one_mul, Nat.mod_eq_of_lt less]

theorem widen_toNat {x : BitVec 32} (small : x.toNat < 2 ^ 31) : (x.signExtend 64).toNat = x.toNat := by
  rw [BitVec.signExtend_eq_setWidth_of_msb_false, BitVec.toNat_setWidth]
  · exact Nat.mod_eq_of_lt (by omega)
  · rw [BitVec.msb_eq_false_iff_two_mul_lt]
    omega

theorem widen_intShift {bits : BitVec 64} (small : bits.toNat < 31) :
    ((intShift bits).signExtend 64).toNat = 2 ^ bits.toNat := by
  have value := intShift_toNat small
  rw [widen_toNat, value]
  rw [value]
  exact Nat.pow_lt_pow_right (by omega) small

theorem widen_intShift_sub {bits low : BitVec 64} (small : bits.toNat < 31) (le : low.toNat ≤ bits.toNat) :
    ((intShift bits - intShift low).signExtend 64).toNat = 2 ^ bits.toNat - 2 ^ low.toNat := by
  have bits_ := intShift_toNat small
  have low_ : (intShift low).toNat = 2 ^ low.toNat := intShift_toNat (by omega)
  have less : 2 ^ bits.toNat < 2 ^ 31 := Nat.pow_lt_pow_right (by omega) small
  have le' : 2 ^ low.toNat ≤ 2 ^ bits.toNat := Nat.pow_le_pow_right (by omega) le
  have difference : (intShift bits - intShift low).toNat = 2 ^ bits.toNat - 2 ^ low.toNat := by
    rw [BitVec.toNat_sub_of_le, bits_, low_]
    rw [BitVec.le_def, bits_, low_]
    exact le'
  rw [widen_toNat, difference]
  rw [difference]
  omega

theorem mask_testBit {n low i : Nat} (le : low ≤ n) : (2 ^ n - 2 ^ low).testBit i =
    (decide (low ≤ i) && decide (i < n)) := by
  have split : 2 ^ n - 2 ^ low = 2 ^ low * (2 ^ (n - low) - 1) := by
    rw [Nat.mul_sub, Nat.mul_one, ← Nat.pow_add, show low + (n - low) = n by omega]
  rw [split, Nat.testBit_two_pow_mul, Nat.testBit_two_pow_sub_one]
  by_cases above : low ≤ i
  · simp only [above, decide_true, Bool.true_and, decide_eq_decide]
    omega
  · simp [above]

end ShadowMemory

namespace Split

variable (s : Split)

theorem low_le : s.low ≤ s.page := s.fits

theorem l1_toNat : (BitVec.ofNat 64 s.l1).toNat = s.l1 := by
  have bound := s.l1Bits
  rw [BitVec.toNat_ofNat, Nat.mod_eq_of_lt (by omega)]

theorem l2_toNat : (BitVec.ofNat 64 s.l2).toNat = s.l2 := by
  have bound := s.l2Bits
  rw [BitVec.toNat_ofNat, Nat.mod_eq_of_lt (by omega)]

theorem l1Shift_toNat : s.memory.l1PageTableShift.toNat = s.l2 + s.page := by
  have whole := s.whole
  have value : s.memory.l1PageTableShift = 48 - BitVec.ofNat 64 s.l1 := rfl
  have le : BitVec.ofNat 64 s.l1 ≤ 48 := by
    rw [BitVec.le_def, s.l1_toNat, show (48 : BitVec 64).toNat = 48 from rfl]
    omega
  rw [value, BitVec.toNat_sub_of_le le, s.l1_toNat, show (48 : BitVec 64).toNat = 48 from rfl]
  omega

theorem l2Shift_toNat : s.memory.l2PageTableShift.toNat = s.page := by
  have value : s.memory.l2PageTableShift = s.memory.l1PageTableShift - BitVec.ofNat 64 s.l2 := rfl
  have le : BitVec.ofNat 64 s.l2 ≤ s.memory.l1PageTableShift := by
    rw [BitVec.le_def, s.l2_toNat, s.l1Shift_toNat]
    omega
  rw [value, BitVec.toNat_sub_of_le le, s.l2_toNat, s.l1Shift_toNat]
  omega

theorem offsetShift_toNat : s.memory.pageOffsetShift.toNat = s.low := rfl

theorem l2IndexMask_bit (i : Nat) : s.memory.l2IndexMask.getLsbD i = decide (i < s.l2) := by
  have value : s.memory.l2IndexMask = (ShadowMemory.intShift (BitVec.ofNat 64 s.l2) - ShadowMemory.intShift 0).signExtend 64 := rfl
  have small : (BitVec.ofNat 64 s.l2).toNat < 31 := by
    rw [s.l2_toNat]
    exact s.l2Bits
  have number := ShadowMemory.widen_intShift_sub small (show (0 : BitVec 64).toNat ≤ _ from Nat.zero_le _)
  rw [BitVec.getLsbD, value, number, s.l2_toNat, show (0 : BitVec 64).toNat = 0 from rfl,
    ShadowMemory.mask_testBit (Nat.zero_le _)]
  simp

theorem shadowPageIndexMask_bit (i : Nat) :
    s.memory.shadowPageIndexMask.getLsbD i = (decide (s.low ≤ i) && decide (i < s.page)) := by
  have value : s.memory.shadowPageIndexMask = (ShadowMemory.intShift s.memory.l2PageTableShift -
      ShadowMemory.intShift s.granularity.lowZeros).signExtend 64 := rfl
  have small : s.memory.l2PageTableShift.toNat < 31 := by
    rw [s.l2Shift_toNat]
    exact s.pageBits
  have fits : s.granularity.lowZeros.toNat ≤ s.memory.l2PageTableShift.toNat := by
    rw [s.l2Shift_toNat]
    exact s.fits
  have number := ShadowMemory.widen_intShift_sub small fits
  rw [BitVec.getLsbD, value, number, s.l2Shift_toNat]
  exact ShadowMemory.mask_testBit s.fits

variable (address : BitVec 64) (i : Nat)

theorem l1Index_bit : (s.memory.getL1PageIndex address).getLsbD i =
    (decide (i < s.l1) && address.getLsbD (s.l2 + s.page + i)) := by
  have whole := s.whole
  have mask : ∀ j, CANONICAL_FORM_MASK.getLsbD j = decide (j < 48) := by
    intro j
    have value : CANONICAL_FORM_MASK.toNat = 2 ^ 48 - 1 := by decide
    rw [BitVec.getLsbD, value, Nat.testBit_two_pow_sub_one]
  rw [ShadowMemory.getL1PageIndex, BitVec.ushiftRight_eq', BitVec.getLsbD_ushiftRight, BitVec.getLsbD_and, mask,
    s.l1Shift_toNat, Bool.and_comm]
  congr 1
  rw [decide_eq_decide]
  omega

theorem l2Index_bit : (s.memory.getL2PageIndex address).getLsbD i =
    (decide (i < s.l2) && address.getLsbD (s.page + i)) := by
  rw [ShadowMemory.getL2PageIndex, BitVec.getLsbD_and, BitVec.ushiftRight_eq', BitVec.getLsbD_ushiftRight,
    s.l2IndexMask_bit,
    s.l2Shift_toNat, Bool.and_comm]

theorem pageIndex_bit :
    (s.memory.getPageIndex address).getLsbD i = (decide (i < s.page - s.low) && address.getLsbD (s.low + i)) := by
  have fits := s.low_le
  rw [ShadowMemory.getPageIndex, BitVec.ushiftRight_eq', BitVec.getLsbD_ushiftRight, BitVec.getLsbD_and,
    s.shadowPageIndexMask_bit, s.offsetShift_toNat, Bool.and_comm]
  congr 1
  rw [show decide (s.low ≤ s.low + i) = true from decide_eq_true (by omega), Bool.true_and, decide_eq_decide]
  omega

omit address i in
theorem toNat_lt_of_bits {x : BitVec 64} {n : Nat} (high : ∀ i, n ≤ i → x.getLsbD i = false) : x.toNat < 2 ^ n :=
  Nat.lt_pow_two_of_testBit _ high

omit i in
/-- The indices are within the tables and the page that the constructor allocates for. -/
theorem indices_lt : (s.memory.getL1PageIndex address).toNat < s.memory.numL1PageTableEntries.toNat ∧
    (s.memory.getL2PageIndex address).toNat < s.memory.numL2PageTableEntries.toNat ∧
    (s.memory.getPageIndex address).toNat < s.memory.numEntriesPerPage.toNat := by
  have fits := s.low_le
  have bits := s.pageBits
  have l1 : s.memory.numL1PageTableEntries.toNat = 2 ^ s.l1 := by
    have small : (BitVec.ofNat 64 s.l1).toNat < 31 := by
      rw [s.l1_toNat]
      exact s.l1Bits
    have value := ShadowMemory.widen_intShift small
    rwa [s.l1_toNat] at value
  have l2 : s.memory.numL2PageTableEntries.toNat = 2 ^ s.l2 := by
    have small : (BitVec.ofNat 64 s.l2).toNat < 31 := by
      rw [s.l2_toNat]
      exact s.l2Bits
    have value := ShadowMemory.widen_intShift small
    rwa [s.l2_toNat] at value
  have width : (s.memory.l2PageTableShift - s.granularity.lowZeros).toNat = s.page - s.low := by
    rw [BitVec.toNat_sub_of_le, s.l2Shift_toNat]
    · rfl
    · rw [BitVec.le_def, s.l2Shift_toNat]
      exact fits
  have page : s.memory.numEntriesPerPage.toNat = 2 ^ (s.page - s.low) := by
    have small : (s.memory.l2PageTableShift - s.granularity.lowZeros).toNat < 31 := by
      rw [width]
      omega
    have value := ShadowMemory.widen_intShift small
    rwa [width] at value
  rw [l1, l2, page]
  refine ⟨toNat_lt_of_bits fun i high => ?_, toNat_lt_of_bits fun i high => ?_, toNat_lt_of_bits fun i high => ?_⟩
  · rw [s.l1Index_bit, decide_eq_false (Nat.not_lt.mpr high), Bool.false_and]
  · rw [s.l2Index_bit, decide_eq_false (Nat.not_lt.mpr high), Bool.false_and]
  · rw [s.pageIndex_bit, decide_eq_false (Nat.not_lt.mpr high), Bool.false_and]

omit i in
/-- The three indices take the bits of an address apart, from the granularity up. -/
theorem indices_eq_iff (other : BitVec 64) :
    (s.memory.getL1PageIndex address = s.memory.getL1PageIndex other ∧
      s.memory.getL2PageIndex address = s.memory.getL2PageIndex other ∧
      s.memory.getPageIndex address = s.memory.getPageIndex other) ↔
    ∀ i, s.low ≤ i → i < 48 → address.getLsbD i = other.getLsbD i := by
  have whole := s.whole
  have fits := s.low_le
  constructor
  · rintro ⟨first, second, third⟩ i low high
    by_cases inPage : i < s.page
    · have bit := congrArg (fun x => BitVec.getLsbD x (i - s.low)) third
      simpa [s.pageIndex_bit, show s.low + (i - s.low) = i by omega, show i - s.low < s.page - s.low by omega] using bit
    · by_cases inSecond : i < s.l2 + s.page
      · have bit := congrArg (fun x => BitVec.getLsbD x (i - s.page)) second
        simpa [s.l2Index_bit, show s.page + (i - s.page) = i by omega, show i - s.page < s.l2 by omega] using bit
      · have bit := congrArg (fun x => BitVec.getLsbD x (i - (s.l2 + s.page))) first
        simpa [s.l1Index_bit, show s.l2 + s.page + (i - (s.l2 + s.page)) = i by omega,
          show i - (s.l2 + s.page) < s.l1 by omega] using bit
  · intro agree
    refine ⟨?_, ?_, ?_⟩ <;> apply BitVec.eq_of_getLsbD_eq <;> intro i _
    · rw [s.l1Index_bit, s.l1Index_bit]
      by_cases inside : i < s.l1
      · rw [agree _ (by omega) (by omega)]
      · simp [inside]
    · rw [s.l2Index_bit, s.l2Index_bit]
      by_cases inside : i < s.l2
      · rw [agree _ (by omega) (by omega)]
      · simp [inside]
    · rw [s.pageIndex_bit, s.pageIndex_bit]
      by_cases inside : i < s.page - s.low
      · rw [agree _ (by omega) (by omega)]
      · simp [inside]

end Split

theorem agree_iff_mod (a b : BitVec 64) :
    (∀ i, 0 ≤ i → i < 48 → a.getLsbD i = b.getLsbD i) ↔ a.toNat % 2 ^ 48 = b.toNat % 2 ^ 48 := by
  constructor
  · intro agree
    apply Nat.eq_of_testBit_eq
    intro i
    rw [Nat.testBit_mod_two_pow, Nat.testBit_mod_two_pow]
    by_cases inside : i < 48
    · have bit : a.toNat.testBit i = b.toNat.testBit i := agree i (Nat.zero_le i) inside
      rw [bit]
    · simp [inside]
  · intro same i _ inside
    have bit := congrArg (fun n => n.testBit i) same
    simp only [Nat.testBit_mod_two_pow, inside, decide_true, Bool.true_and] at bit
    exact bit

end Romp
