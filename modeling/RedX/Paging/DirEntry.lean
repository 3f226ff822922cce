import RedX.Core.MachineWord

/-!
# Page-table entries

`struct dirEntry` and `pMapIndexer` of `memory/paging.cpp`.  `pointTo` is what
`map` makes of an entry: the address field replaced, P and RW set, every other
bit kept.
-/

namespace RedX.TableEntry

open RedX.MachineWord

/-- `enum PTF` -/
inductive PTF
  | P | RW | US | WT | CD | A | LP | AV0 | AV1 | AV2 | nx
  deriving DecidableEq

def PTF.value : PTF → ℕ
  | P => 0
  | RW => 1
  | US => 2
  | WT => 3
  | CD => 4
  | A => 5
  | LP => 7
  | AV0 => 9
  | AV1 => 10
  | AV2 => 11
  | nx => 63

@[ext]
structure DirEntry where
  V : Word64
  deriving DecidableEq

/-- `dirEntry::set` -/
def DirEntry.set (entry : DirEntry) (flag : PTF) (B : Bool) : DirEntry :=
  let bit := 1#64 <<< flag.value
  let V := entry.V &&& ~~~bit
  ⟨if B then V ||| bit else V⟩

/-- `dirEntry::get`.  The comparison binds tighter than the mask: `V & (bit > 0)`. -/
def DirEntry.get (entry : DirEntry) (flag : PTF) : Bool :=
  let bit := 1#64 <<< flag.value
  if entry.V &&& (if bit > 0 then 1 else 0) ≠ 0 then true else false

/-- `dirEntry::setAddr` -/
def DirEntry.setAddr (entry : DirEntry) (address : Word64) : DirEntry :=
  ⟨entry.V &&& 0xfff0000000000fff ||| address &&& 0x000000fffffff000⟩

/-- `dirEntry::getAddr` -/
def DirEntry.getAddr (entry : DirEntry) : Word64 := entry.V &&& 0x000ffffffffff000

/-- `pageAlign` -/
def pageAlign (addr : Word64) : Word64 := addr / 0x1000 * 0x1000

structure PMapIndexer where
  P_i : Word64
  PT_i : Word64
  PD_i : Word64
  PDP_i : Word64

/-- `pMapIndexer::pMapIndexer` -/
def pMapIndexer (virtAddr : Word64) : PMapIndexer :=
  let virtAddr := pageAlign virtAddr
  let virtAddr := virtAddr >>> 12
  let P_i := virtAddr &&& 0x1ff
  let virtAddr := virtAddr >>> 9
  let PT_i := virtAddr &&& 0x1ff
  let virtAddr := virtAddr >>> 9
  let PD_i := virtAddr &&& 0x1ff
  let virtAddr := virtAddr >>> 9
  let PDP_i := virtAddr &&& 0x1ff
  ⟨P_i, PT_i, PD_i, PDP_i⟩

/-! ## Flags -/

/-- Every flag has a bit, so `get` looks at bit 0 whatever the flag is. -/
theorem get_eq (entry : DirEntry) (flag : PTF) : entry.get flag = entry.V.getLsbD 0 := by
  have hbit : 1#64 <<< flag.value > 0 := by
    cases flag <;> decide
  rw [DirEntry.get]
  simp only [if_pos hbit]
  change (if entry.V &&& 1#64 ≠ 0 then true else false) = _
  rw [BitVec.and_one_eq_setWidth_ofBool_getLsbD]
  cases entry.V.getLsbD 0 <;> rfl

theorem getLsbD_flag (flag : PTF) (bit : ℕ) :
    (1#64 <<< flag.value).getLsbD bit = decide (bit = flag.value) := by
  have hvalue : flag.value < 64 := by
    cases flag <;> decide
  rw [BitVec.getLsbD_shiftLeft, BitVec.getLsbD_one]
  by_cases hbit : bit = flag.value
  · simp [hbit, hvalue]
  · simp only [hbit, decide_false, Bool.and_eq_false_imp, decide_eq_true_eq]
    intro hlow
    simp only [Bool.and_eq_true, decide_eq_true_eq, Bool.not_eq_true', decide_eq_false_iff_not]
      at hlow
    simp only [decide_eq_false_iff_not]
    omega

/-- `set` changes the bit of its flag and no other one. -/
theorem getLsbD_set (entry : DirEntry) (flag : PTF) (B : Bool) {bit : ℕ} (hbit : bit < 64) :
    (entry.set flag B).V.getLsbD bit =
      if bit = flag.value then B else entry.V.getLsbD bit := by
  have hcleared : (entry.V &&& ~~~(1#64 <<< flag.value)).getLsbD bit =
      (entry.V.getLsbD bit && !decide (bit = flag.value)) := by
    rw [BitVec.getLsbD_and, BitVec.getLsbD_not, getLsbD_flag]
    simp only [hbit, decide_true, Bool.true_and]
  cases B with
  | false =>
      change (entry.V &&& ~~~(1#64 <<< flag.value)).getLsbD bit = _
      rw [hcleared]
      by_cases heq : bit = flag.value <;> simp only [heq, decide_true, decide_false, Bool.not_true,
        Bool.not_false, Bool.and_true, Bool.and_false, if_true, if_false]
  | true =>
      change (entry.V &&& ~~~(1#64 <<< flag.value) ||| 1#64 <<< flag.value).getLsbD bit = _
      rw [BitVec.getLsbD_or, hcleared, getLsbD_flag]
      by_cases heq : bit = flag.value <;> simp only [heq, decide_true, decide_false, Bool.not_true,
        Bool.not_false, Bool.and_true, Bool.and_false, Bool.or_true, Bool.or_false, if_true,
        if_false]

/-! ## Addresses -/

private theorem getLsbD_keepMask : ∀ bit : Fin 64,
    (0xfff0000000000fff : Word64).getLsbD bit = decide (bit.val < 12 ∨ 52 ≤ bit.val) := by
  decide

private theorem getLsbD_setMask : ∀ bit : Fin 64,
    (0x000000fffffff000 : Word64).getLsbD bit = decide (12 ≤ bit.val ∧ bit.val < 40) := by
  decide

private theorem getLsbD_getMask : ∀ bit : Fin 64,
    (0x000ffffffffff000 : Word64).getLsbD bit = decide (12 ≤ bit.val ∧ bit.val < 52) := by
  decide

/-- `setAddr` writes bits 12 to 39 of the address and clears bits 40 to 51. -/
theorem getLsbD_setAddr (entry : DirEntry) (address : Word64) {bit : ℕ} (hbit : bit < 64) :
    (entry.setAddr address).V.getLsbD bit =
      if bit < 12 ∨ 52 ≤ bit then entry.V.getLsbD bit
      else address.getLsbD bit && decide (bit < 40) := by
  have hkeep := getLsbD_keepMask ⟨bit, hbit⟩
  have hset := getLsbD_setMask ⟨bit, hbit⟩
  rw [DirEntry.setAddr]
  simp only [BitVec.getLsbD_or, BitVec.getLsbD_and, hkeep, hset]
  by_cases hfield : bit < 12 ∨ 52 ≤ bit
  · have hout : ¬ (12 ≤ bit ∧ bit < 40) := by omega
    simp [hfield, hout]
  · have hlow : 12 ≤ bit := by omega
    simp [hfield, hlow]

theorem getLsbD_getAddr (entry : DirEntry) {bit : ℕ} (hbit : bit < 64) :
    entry.getAddr.getLsbD bit = (entry.V.getLsbD bit && decide (12 ≤ bit ∧ bit < 52)) := by
  rw [DirEntry.getAddr, BitVec.getLsbD_and, getLsbD_getMask ⟨bit, hbit⟩]

theorem toNat_pageAlign (addr : Word64) :
    (pageAlign addr).toNat = addr.toNat / 4096 * 4096 := by
  have haddr := addr.isLt
  rw [pageAlign, BitVec.toNat_mul, BitVec.toNat_udiv]
  change addr.toNat / 4096 * 4096 % 2 ^ 64 = _
  omega

theorem getLsbD_pageAlign (addr : Word64) (bit : ℕ) :
    (pageAlign addr).getLsbD bit = (addr.getLsbD bit && decide (12 ≤ bit)) := by
  have hshift : addr.toNat / 4096 * 4096 = addr.toNat >>> 12 <<< 12 := by
    rw [Nat.shiftRight_eq_div_pow, Nat.shiftLeft_eq]
  rw [← BitVec.testBit_toNat, toNat_pageAlign, hshift, Nat.testBit_shiftLeft,
    Nat.testBit_shiftRight, BitVec.testBit_toNat]
  by_cases hlow : 12 ≤ bit
  · simp [hlow]
  · simp [hlow]

theorem getAddr_set (entry : DirEntry) (flag : PTF) (B : Bool) :
    (entry.set flag B).getAddr = entry.getAddr := by
  have houtside : flag.value < 12 ∨ 52 ≤ flag.value := by
    cases flag <;> decide
  apply BitVec.eq_of_getLsbD_eq
  intro bit hbit
  rw [getLsbD_getAddr _ hbit, getLsbD_getAddr _ hbit, getLsbD_set _ _ _ hbit]
  by_cases hflag : bit = flag.value
  · have hfield : ¬ (12 ≤ bit ∧ bit < 52) := by omega
    simp only [hfield, decide_false, Bool.and_false]
  · rw [if_neg hflag]

/-! ## Flags as fields of their own -/

/-- Reading `flag` after `other` has been set to `B`. -/
structure Independent (entry : DirEntry) (flag other : PTF) (B : Bool) : Prop where
  get_bit : entry.get flag = entry.V.getLsbD flag.value
  get_set : (entry.set other B).get flag = if flag = other then B else entry.get flag
  getAddr_set : (entry.set other B).getAddr = entry.getAddr

/-- What `get` sees of `set`: P, whatever flag it is asked for. -/
theorem get_set_eq (entry : DirEntry) (flag other : PTF) (B : Bool) :
    (entry.set other B).get flag = if other = .P then B else entry.V.getLsbD 0 := by
  rw [get_eq, getLsbD_set _ _ _ (by omega)]
  cases other <;> rfl

/-- The flags are independent exactly where bit 0 happens to say what the flag's own bit
should say. -/
theorem independent_iff (entry : DirEntry) (flag other : PTF) (B : Bool) :
    Independent entry flag other B ↔
      flag = .P ∨ entry.V.getLsbD flag.value = entry.V.getLsbD 0 ∧
        (other = flag ∨ other = .P → B = entry.V.getLsbD 0) := by
  constructor
  · rintro ⟨hbit, hset, -⟩
    by_cases hflag : flag = .P
    · exact Or.inl hflag
    · rw [get_eq] at hbit
      rw [get_set_eq, get_eq] at hset
      refine Or.inr ⟨hbit.symm, ?_⟩
      rintro (rfl | rfl)
      · rw [if_neg hflag, if_pos rfl] at hset
        exact hset.symm
      · rwa [if_pos rfl, if_neg hflag] at hset
  · intro hcond
    refine ⟨?_, ?_, getAddr_set entry other B⟩
    · rw [get_eq]
      rcases hcond with rfl | ⟨hbit, -⟩
      · rfl
      · exact hbit.symm
    · rw [get_set_eq, get_eq]
      rcases hcond with rfl | ⟨-, hvalue⟩
      · by_cases hother : other = .P
        · rw [if_pos hother, if_pos hother.symm]
        · rw [if_neg hother, if_neg (Ne.symm hother)]
      · by_cases hother : other = flag ∨ other = .P
        · rw [hvalue hother]
          split_ifs <;> rfl
        · obtain ⟨hself, hpresent⟩ := not_or.mp hother
          rw [if_neg hpresent, if_neg (Ne.symm hself)]

/-- A read-only present page reads as writable. -/
theorem not_independent_readOnly : ¬ Independent ⟨1⟩ .RW .US true := by
  intro hindependent
  have hread := hindependent.get_bit
  revert hread
  decide

/-! ## The address field -/

/-- What `setAddr` should do: `getAddr` returns the page of the address, the bits outside
of the field are kept. -/
structure RoundTrips (entry : DirEntry) (address : Word64) : Prop where
  aligned : address.toNat % 4096 = 0 → (entry.setAddr address).getAddr = address
  cleared : (entry.setAddr address).getAddr = address &&& ~~~0xfff
  kept : ∀ bit < 64, bit < 12 ∨ 52 ≤ bit →
    (entry.setAddr address).V.getLsbD bit = entry.V.getLsbD bit

private theorem getLsbD_offsetMask : ∀ bit : Fin 64,
    (~~~0xfff : Word64).getLsbD bit = decide (12 ≤ bit.val) := by
  decide

theorem pageAlign_eq_and (address : Word64) : pageAlign address = address &&& ~~~0xfff := by
  apply BitVec.eq_of_getLsbD_eq
  intro bit hbit
  rw [getLsbD_pageAlign, BitVec.getLsbD_and, getLsbD_offsetMask ⟨bit, hbit⟩]

theorem pageAlign_of_aligned {address : Word64} (haligned : address.toNat % 4096 = 0) :
    pageAlign address = address := by
  apply BitVec.eq_of_toNat_eq
  rw [toNat_pageAlign]
  omega

/-- Bits 40 to 51 of an address do not come back. -/
theorem getLsbD_getAddr_setAddr (entry : DirEntry) (address : Word64) {bit : ℕ} (hbit : bit < 64) :
    (entry.setAddr address).getAddr.getLsbD bit =
      (address.getLsbD bit && decide (12 ≤ bit ∧ bit < 40)) := by
  rw [getLsbD_getAddr _ hbit, getLsbD_setAddr _ _ hbit]
  by_cases hfield : bit < 12 ∨ 52 ≤ bit
  · have hin : ¬ (12 ≤ bit ∧ bit < 52) := by omega
    have hwritten : ¬ (12 ≤ bit ∧ bit < 40) := by omega
    simp only [hin, hwritten, decide_false, Bool.and_false]
  · have hin : 12 ≤ bit ∧ bit < 52 := by omega
    rw [if_neg hfield]
    simp only [hin, and_self, decide_true, Bool.and_true, true_and]

theorem getAddr_setAddr (entry : DirEntry) {address : Word64} (hlow : address.toNat < 2 ^ 40) :
    (entry.setAddr address).getAddr = pageAlign address := by
  apply BitVec.eq_of_getLsbD_eq
  intro bit hbit
  rw [getLsbD_getAddr_setAddr _ _ hbit, getLsbD_pageAlign]
  by_cases hforty : bit < 40
  · simp only [hforty, and_true]
  · have hhigh : address.getLsbD bit = false := by
      rw [← BitVec.testBit_toNat]
      apply Nat.testBit_lt_two_pow
      exact lt_of_lt_of_le hlow (Nat.pow_le_pow_right (by omega) (by omega))
    simp only [hhigh, Bool.false_and]

/-- `setAddr` writes 28 bits of the 40 that `getAddr` reads. -/
theorem roundTrips_iff (entry : DirEntry) {address : Word64} (hfield : address.toNat < 2 ^ 52) :
    RoundTrips entry address ↔ address.toNat < 2 ^ 40 := by
  constructor
  · intro hround
    by_contra hhigh
    obtain ⟨bit, hforty, hset⟩ := Nat.exists_ge_and_testBit_of_ge_two_pow (Nat.le_of_not_lt hhigh)
    have hbit : bit < 52 := by
      by_contra hout
      rw [Nat.testBit_lt_two_pow
        (lt_of_lt_of_le hfield (Nat.pow_le_pow_right (by omega) (by omega)))] at hset
      cases hset
    have hread := congrArg (fun word => word.getLsbD bit) hround.cleared
    simp only [getLsbD_getAddr_setAddr entry address (show bit < 64 by omega),
      ← pageAlign_eq_and, getLsbD_pageAlign] at hread
    rw [← BitVec.testBit_toNat, hset] at hread
    simp [show ¬ bit < 40 by omega, show 12 ≤ bit by omega] at hread
  · intro hlow
    refine ⟨fun haligned => ?_, ?_, fun bit hbit houtside => ?_⟩
    · rw [getAddr_setAddr entry hlow, pageAlign_of_aligned haligned]
    · rw [getAddr_setAddr entry hlow, pageAlign_eq_and]
    · rw [getLsbD_setAddr _ _ hbit, if_pos houtside]

/-- The last page below 1 TiB. -/
theorem roundTrips_lastLow : (0xfffffff000 : Word64).toNat < 2 ^ 52 ∧
    RoundTrips ⟨0⟩ 0xfffffff000 :=
  ⟨by decide, (roundTrips_iff ⟨0⟩ (by decide)).mpr (by decide)⟩

/-- A frame buffer at 1 TiB. -/
theorem not_roundTrips_high :
    (0x10000000000 : Word64).toNat < 2 ^ 52 ∧ ¬ RoundTrips ⟨0⟩ 0x10000000000 := by
  refine ⟨by decide, fun hround => ?_⟩
  have hread := hround.aligned (by decide)
  revert hread
  decide

/-! ## What `map` makes of an entry -/

/-- `setAddr`, then P and RW set. -/
def DirEntry.pointTo (entry : DirEntry) (address : Word64) : DirEntry :=
  ((entry.setAddr address).set .P true).set .RW true

theorem getLsbD_pointTo (entry : DirEntry) (address : Word64) {bit : ℕ} (hbit : bit < 64) :
    (entry.pointTo address).V.getLsbD bit =
      if bit < 2 then true
      else if bit < 12 ∨ 52 ≤ bit then entry.V.getLsbD bit
      else address.getLsbD bit && decide (bit < 40) := by
  rw [DirEntry.pointTo, getLsbD_set _ _ _ hbit, getLsbD_set _ _ _ hbit,
    getLsbD_setAddr _ _ hbit]
  change (if bit = 1 then true else if bit = 0 then true else _) = _
  by_cases hlow : bit < 2
  · rw [if_pos hlow]
    by_cases hone : bit = 1
    · rw [if_pos hone]
    · rw [if_neg hone, if_pos (by omega)]
  · rw [if_neg hlow, if_neg (by omega), if_neg (by omega)]

/-- Bits 40 and above of the address are lost. -/
theorem getAddr_pointTo (entry : DirEntry) {address : Word64} (hlow : address.toNat < 2 ^ 40) :
    (entry.pointTo address).getAddr = pageAlign address := by
  rw [DirEntry.pointTo, getAddr_set, getAddr_set, getAddr_setAddr entry hlow]

/-- Pointing an entry elsewhere leaves no trace of the first address. -/
theorem pointTo_pointTo (entry : DirEntry) (first second : Word64) :
    (entry.pointTo first).pointTo second = entry.pointTo second := by
  apply DirEntry.ext
  apply BitVec.eq_of_getLsbD_eq
  intro bit hbit
  rw [getLsbD_pointTo _ _ hbit, getLsbD_pointTo _ _ hbit, getLsbD_pointTo _ _ hbit]
  split_ifs <;> rfl

/-! ## Indices -/

/-- Page number in the 48-bit address space of a four-level walk. -/
def virtualPage (virtAddr : Word64) : ℕ := virtAddr.toNat / 4096 % 2 ^ 36

private theorem toNat_and_511 (word : Word64) : (word &&& 0x1ff).toNat = word.toNat % 512 := by
  rw [BitVec.toNat_and]
  exact Nat.and_two_pow_sub_one_eq_mod word.toNat 9

/-- The four indices are the base-512 digits of the page number. -/
theorem toNat_pMapIndexer (virtAddr : Word64) :
    (pMapIndexer virtAddr).PDP_i.toNat = virtualPage virtAddr / 512 ^ 3 % 512 ∧
    (pMapIndexer virtAddr).PD_i.toNat = virtualPage virtAddr / 512 ^ 2 % 512 ∧
    (pMapIndexer virtAddr).PT_i.toNat = virtualPage virtAddr / 512 % 512 ∧
    (pMapIndexer virtAddr).P_i.toNat = virtualPage virtAddr % 512 := by
  simp only [pMapIndexer, toNat_and_511, BitVec.toNat_ushiftRight, toNat_pageAlign,
    Nat.shiftRight_eq_div_pow, virtualPage]
  omega

end RedX.TableEntry
