import Romp.Shadow.Safety

namespace Romp

def accessedBytes (address : BitVec 64) (bytesAccessed : BitVec 32) : List (BitVec 64) :=
  (List.range bytesAccessed.toNat).map fun i => address + BitVec.ofNat 64 i

namespace Pages

variable {Thread α : Type} [DecidableEq Thread] {zero : α} {s : Pages Thread α}

/-- What `getShadowMemorySlot` returns of an address: a page with an index into it. -/
def Slot (m : ShadowMemory) (s : Pages Thread α) (address : BitVec 64) (slot : Nat × BitVec 64) : Prop :=
  ∃ t page, (address, some page) ∈ s.returned t ∧ slot = (page, m.getPageIndex address)

omit [DecidableEq Thread] in
/-- The page of a slot is that of the two indices of the address, and no other two have it. -/
theorem Installed.slot_eq_iff {m : ShadowMemory} (installed : s.Installed m zero) {a b : BitVec 64}
    {x y : Nat × BitVec 64}
    (first : s.Slot m a x) (second : s.Slot m b y) : x = y ↔ m.getL1PageIndex a = m.getL1PageIndex b ∧
      m.getL2PageIndex a = m.getL2PageIndex b ∧ m.getPageIndex a = m.getPageIndex b := by
  obtain ⟨t, page, got, rfl⟩ := first
  obtain ⟨t', page', got', rfl⟩ := second
  have filled := (installed.returned t a _ got).2
  have filled' := (installed.returned t' b _ got').2
  rw [Prod.mk.injEq]
  constructor
  · rintro ⟨rfl, index⟩
    obtain ⟨l1, l2⟩ := installed.entries filled filled'
    exact ⟨l1, l2, index⟩
  · rintro ⟨l1, l2, index⟩
    rw [l1, l2, filled', Option.some.injEq] at filled
    exact ⟨filled.symm, index⟩

variable {d : Split}

theorem slot_eq_iff (reached : Reachable d.memory zero s) {a b : BitVec 64} {x y : Nat × BitVec 64}
    (first : s.Slot d.memory a x) (second : s.Slot d.memory b y) :
    x = y ↔ ∀ i, d.low ≤ i → i < 48 → a.getLsbD i = b.getLsbD i :=
  (reached.installed.slot_eq_iff first second).trans (d.indices_eq_iff a b)

theorem mem_accessedBytes {address byte : BitVec 64} {bytesAccessed : BitVec 32} :
    byte ∈ accessedBytes address bytesAccessed ↔ ∃ i < bytesAccessed.toNat, byte = address + BitVec.ofNat 64 i := by
  simp only [accessedBytes, List.mem_map, List.mem_range, eq_comm]

theorem byte_mod (address : BitVec 64) (i : Nat) :
    (address + BitVec.ofNat 64 i).toNat % 2 ^ 48 = (address.toNat + i) % 2 ^ 48 := by
  have divides : 2 ^ 48 ∣ 2 ^ 64 := Nat.pow_dvd_pow 2 (by omega)
  rw [BitVec.toNat_add, BitVec.toNat_ofNat, Nat.mod_mod_of_dvd _ divides, Nat.add_mod, Nat.mod_mod_of_dvd _ divides,
    ← Nat.add_mod]

/-- At byte granularity two accesses share a slot when they share a byte. -/
theorem shared_slot_iff (reached : Reachable d.memory zero s) (bytes : d.granularity = .eByteLevel) {a b : BitVec 64}
    {m n : BitVec 32} (first : ∀ c ∈ accessedBytes a m, ∃ x, s.Slot d.memory c x)
    (second : ∀ c ∈ accessedBytes b n, ∃ x, s.Slot d.memory c x) :
    (∃ x, (∃ c ∈ accessedBytes a m, s.Slot d.memory c x) ∧ ∃ c ∈ accessedBytes b n, s.Slot d.memory c x) ↔
      ∃ i < m.toNat, ∃ j < n.toNat, (a.toNat + i) % 2 ^ 48 = (b.toNat + j) % 2 ^ 48 := by
  have low : d.low = 0 := by
    rw [Split.low, bytes]
    rfl
  have same : ∀ {c c' : BitVec 64} {x y : Nat × BitVec 64}, s.Slot d.memory c x → s.Slot d.memory c' y →
      (x = y ↔ c.toNat % 2 ^ 48 = c'.toNat % 2 ^ 48) := by
    intro c c' x y slot slot'
    rw [slot_eq_iff reached slot slot', low, agree_iff_mod]
  constructor
  · rintro ⟨x, ⟨c, member, slot⟩, c', member', slot'⟩
    have equal := (same slot slot').mp rfl
    obtain ⟨i, inside, rfl⟩ := mem_accessedBytes.mp member
    obtain ⟨j, inside', rfl⟩ := mem_accessedBytes.mp member'
    rw [byte_mod, byte_mod] at equal
    exact ⟨i, inside, j, inside', equal⟩
  · rintro ⟨i, inside, j, inside', equal⟩
    have member : a + BitVec.ofNat 64 i ∈ accessedBytes a m := mem_accessedBytes.mpr ⟨i, inside, rfl⟩
    have member' : b + BitVec.ofNat 64 j ∈ accessedBytes b n := mem_accessedBytes.mpr ⟨j, inside', rfl⟩
    obtain ⟨x, slot⟩ := first _ member
    obtain ⟨y, slot'⟩ := second _ member'
    have shared : x = y := by
      rw [same slot slot', byte_mod, byte_mod]
      exact equal
    exact ⟨x, ⟨_, member, slot⟩, _, member', shared ▸ slot'⟩

theorem slots_identify_bytes (reached : Reachable d.memory zero s) :
    (∀ a, (d.memory.getL1PageIndex a).toNat < d.memory.numL1PageTableEntries.toNat ∧
      (d.memory.getL2PageIndex a).toNat < d.memory.numL2PageTableEntries.toNat ∧
      (d.memory.getPageIndex a).toNat < d.memory.numEntriesPerPage.toNat) ∧
    (∀ a b x y, s.Slot d.memory a x → s.Slot d.memory b y →
      (x = y ↔ ∀ i, d.granularity.lowZeros.toNat ≤ i → i < 48 → a.getLsbD i = b.getLsbD i)) ∧
    (d.granularity = .eByteLevel → ∀ a m b n, (∀ c ∈ accessedBytes a m, ∃ x, s.Slot d.memory c x) →
      (∀ c ∈ accessedBytes b n, ∃ x, s.Slot d.memory c x) →
      ((∃ x, (∃ c ∈ accessedBytes a m, s.Slot d.memory c x) ∧ ∃ c ∈ accessedBytes b n, s.Slot d.memory c x) ↔
        ∃ i < m.toNat, ∃ j < n.toNat, (a.toNat + i) % 2 ^ 48 = (b.toNat + j) % 2 ^ 48)) :=
  ⟨fun a => d.indices_lt a, fun _ _ _ _ first second => slot_eq_iff reached first second,
    fun bytes _ _ _ _ first second => shared_slot_iff reached bytes first second⟩

/-- Two bytes at one address, and one at the second of them with the bits above the 48th changed. -/
theorem slots_identify_bytes_alias : ∃ s : Pages Unit Nat, ∃ d : Split, Reachable d.memory 0 s ∧
    ∃ x, (∃ c ∈ accessedBytes 0x7fff5a10 2, s.Slot d.memory c x) ∧
      ∃ c ∈ accessedBytes 0x300007fff5a11 1, s.Slot d.memory c x := by
  have evaluated : ((new 0).run .default 0 ([0x7fff5a10, 0x7fff5a11, 0x300007fff5a11].flatMap fun a =>
      ((), PageAction.call a) :: List.replicate (if a = 0x7fff5a10 then 10 else 5) ((), .go)) |>.any
        fun s : Pages Unit Nat => decide (s.returned () =
          [(0x7fff5a10, some 0), (0x7fff5a11, some 0), (0x300007fff5a11, some 0)])) = true := by decide
  obtain ⟨s, ran, returned⟩ := exists_of_any evaluated
  let d : Split := ⟨20, 12, 16, .eByteLevel, rfl, by decide, by decide, by decide, by decide⟩
  have reached : Reachable d.memory 0 s := Reachable.run .start ran
  have got : ∀ a ∈ [0x7fff5a10, 0x7fff5a11, 0x300007fff5a11], ∃ x, s.Slot d.memory a x := by
    intro a member
    refine ⟨(0, d.memory.getPageIndex a), (), 0, ?_, rfl⟩
    rw [returned]
    simp only [List.mem_cons, List.not_mem_nil, or_false] at member ⊢
    rcases member with rfl | rfl | rfl <;> simp
  refine ⟨s, d, reached, ((slots_identify_bytes reached).2.2 rfl _ _ _ _ (fun c member => got c ?_)
    fun c member => got c ?_).mpr ⟨1, by decide, 0, by decide, by decide⟩⟩
  · have among : accessedBytes 0x7fff5a10 2 = [0x7fff5a10, 0x7fff5a11] := by decide
    rw [among] at member
    exact List.mem_of_mem_take (i := 2) member
  · have among : accessedBytes 0x300007fff5a11 1 = [0x300007fff5a11] := by decide
    rw [among] at member
    exact List.mem_of_mem_drop (i := 2) member

end Pages

end Romp
