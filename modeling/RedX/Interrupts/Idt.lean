import RedX.Core.PartialRun
import RedX.Paging.PagePool

/-!
# The interrupt descriptor table

`interuptInit` takes a pool for the table and fills four gates in.  `setGate` writes the
handler's address, the type and the selector of an entry and leaves its other fields as the
page held them; no code clears the page.  Linear addresses go through the page tables.
-/

namespace RedX.InterruptTable

open RedX.MachineWord
open RedX.ByteMemory
open RedX.WordArray
open RedX.PartialRun
open RedX.RadixTree
open RedX.FreePages
open RedX.TableEntry
open RedX.PageTables
open RedX.PageTree
open RedX.MapRun
open RedX.Translation
open RedX.PagePool

@[ext]
structure IDTEntry where
  offset0 : BitVec 16
  selector : BitVec 16
  ist : Byte
  type_attr : Byte
  offset1 : BitVec 16
  offset2 : Word32
  ignore : Word32
  deriving DecidableEq

/-- `IDTEntry::setOffset` -/
def IDTEntry.setOffset (entry : IDTEntry) (offset : Word64) : IDTEntry :=
  { entry with
    offset0 := (offset &&& 0x000000000000ffff).setWidth 16
    offset1 := ((offset &&& 0x00000000ffff0000) >>> 16).setWidth 16
    offset2 := ((offset &&& 0xffffffff00000000) >>> 32).setWidth 32 }

/-- `IDTEntry::getOffset` -/
def IDTEntry.getOffset (entry : IDTEntry) : Word64 :=
  entry.offset0.setWidth 64 ||| entry.offset1.setWidth 64 <<< 16 |||
    entry.offset2.setWidth 64 <<< 32

/-- The first eight bytes of an entry. -/
def IDTEntry.low (entry : IDTEntry) : Word64 :=
  entry.offset1 ++ entry.type_attr ++ entry.ist ++ entry.selector ++ entry.offset0

/-- The last eight bytes of an entry. -/
def IDTEntry.high (entry : IDTEntry) : Word64 := entry.ignore ++ entry.offset2

def IDTEntry.ofWords (low high : Word64) : IDTEntry where
  offset0 := low.extractLsb' 0 16
  selector := low.extractLsb' 16 16
  ist := low.extractLsb' 32 8
  type_attr := low.extractLsb' 40 8
  offset1 := low.extractLsb' 48 16
  offset2 := high.extractLsb' 0 32
  ignore := high.extractLsb' 32 32

/-- The entry at an address. -/
def entryAt (memory : Memory) (address : Word64) : IDTEntry :=
  .ofWords (load64 memory address) (load64 memory (address + 8))

def putEntry (memory : Memory) (address : Word64) (entry : IDTEntry) : Memory :=
  store64 (store64 memory address entry.low) (address + 8) entry.high

/-- `intr`, the type of a present interrupt gate. -/
def intr : Byte := 0b10001110

/-- The arguments of a call of `setGate`. -/
structure Gate where
  handler : Word64
  offset : Byte
  type_attr : Byte
  selector : Byte

/-- What `setGate` assigns; it reads neither `type_attr` nor `selector`. -/
def IDTEntry.setGate (entry : IDTEntry) (gate : Gate) : IDTEntry :=
  { entry.setOffset gate.handler with
    type_attr := intr
    selector := 0x08 }

structure IDTR where
  limit : BitVec 16
  offset : Word64

/-- `idtr.offset + offset * sizeof(IDTEntry)` -/
def IDTR.entryAddr (idtr : IDTR) (offset : Byte) : Word64 :=
  idtr.offset + offset.setWidth 64 * 16

/-- The physical address that a linear address is translated to. -/
def resolve (memory : Memory) (dirAddr virtAddr : Word64) : Option Word64 :=
  let path := walk memory dirAddr (indices virtAddr)
  if path.length = 4 ∧ ∀ entry ∈ path,
      hasFlag entry .P = true ∧ hasFlag entry .RW = true ∧ hasFlag entry .LP = false then
    path.getLast?.map fun entry => entry.getAddr + (virtAddr &&& 0xfff)
  else none

/-- `setGate`, `none` where the entry is not mapped.  The sixteen bytes of an entry of an
aligned table lie in one page. -/
def setGate (man : PTableMan) (idtr : IDTR) (s : Kernel) (gate : Gate) : Option Kernel :=
  (resolve s.memory man.dirAddr (idtr.entryAddr gate.offset)).map fun interrupt =>
    s.withMemory (putEntry s.memory interrupt ((entryAt s.memory interrupt).setGate gate))

/-- What the processor reads for an interrupt. -/
def readEntry (man : PTableMan) (idtr : IDTR) (s : Kernel) (n : Byte) : Option IDTEntry :=
  (resolve s.memory man.dirAddr (idtr.entryAddr n)).map (entryAt s.memory)

/-- The handlers that `interuptInit` installs. -/
structure Handlers where
  pageFaultHandler : Word64
  doubleFaultHandler : Word64
  genProcFaultHandler : Word64
  keyboardHandler : Word64

def Handlers.gates (handlers : Handlers) : List Gate :=
  [⟨handlers.pageFaultHandler, 0xe, intr, 0x08⟩, ⟨handlers.doubleFaultHandler, 0x8, intr, 0x08⟩,
    ⟨handlers.genProcFaultHandler, 0xd, intr, 0x08⟩, ⟨handlers.keyboardHandler, 0x21, intr, 0x08⟩]

/-- `interuptInit` up to `lidt` -/
def interuptInit (console : Console) (man : PTableMan) (handlers : Handlers) (s : Kernel) :
    Option (IDTR × Kernel) :=
  (man.getPool console 0x1000 s).bind fun pool =>
    let idtr : IDTR := ⟨0x0fff, pool.1⟩
    (run (setGate man idtr) pool.2 handlers.gates).map fun s => (idtr, s)

/-! ## One entry -/

theorem getOffset_setOffset (entry : IDTEntry) (offset : Word64) :
    (entry.setOffset offset).getOffset = offset := by
  have hlow : ∀ i < 16, (0x000000000000ffff#64).getLsbD i = true := by decide
  have hmiddle : ∀ i < 16, (0x00000000ffff0000#64).getLsbD (16 + i) = true := by decide
  have hhigh : ∀ i < 32, (0xffffffff00000000#64).getLsbD (32 + i) = true := by decide
  apply BitVec.eq_of_getLsbD_eq
  intro i hi
  simp only [IDTEntry.getOffset, IDTEntry.setOffset, BitVec.getLsbD_or, BitVec.getLsbD_shiftLeft,
    BitVec.getLsbD_setWidth, BitVec.getLsbD_and, BitVec.getLsbD_ushiftRight, BitVec.ofNat_eq_ofNat,
    hi, decide_true, Bool.true_and]
  rcases Nat.lt_or_ge i 16 with hfirst | hfirst
  · simp [hfirst, hlow i hfirst, show i < 32 by omega]
  · rcases Nat.lt_or_ge i 32 with hsecond | hsecond
    · have hplace := hmiddle (i - 16) (by omega)
      rw [show 16 + (i - 16) = i by omega] at hplace ⊢
      simp [show ¬ i < 16 by omega, hsecond, hplace, show i - 16 < 16 by omega,
        show i - 16 < 64 by omega]
    · have hplace := hhigh (i - 32) (by omega)
      rw [show 32 + (i - 32) = i by omega] at hplace ⊢
      simp [show ¬ i < 16 by omega, show ¬ i < 32 by omega, hplace, show i - 32 < 32 by omega,
        show ¬ i - 16 < 16 by omega, show i - 32 < 64 by omega]

theorem ofWords_low_high (entry : IDTEntry) : .ofWords entry.low entry.high = entry := by
  ext1
  all_goals
    apply BitVec.eq_of_getLsbD_eq
    intro i hi
    simp only [IDTEntry.ofWords, IDTEntry.low, IDTEntry.high, BitVec.getLsbD_extractLsb',
      BitVec.getLsbD_append]
    grind

theorem slot_succ (base : Word64) (index : ℕ) : slot base index + 8 = slot base (index + 1) := by
  rw [slot, slot, BitVec.add_assoc]
  exact congrArg (base + ·) (BitVec.ofNat_add _ _).symm

/-- The words of the entries: entry `n` is words `2 * n` and `2 * n + 1` of the table. -/
theorem entryAt_slot (memory : Memory) (base : Word64) (n : ℕ) :
    entryAt memory (slot base (2 * n)) =
      .ofWords (wordAt memory base (2 * n)) (wordAt memory base (2 * n + 1)) := by
  rw [entryAt, wordAt, wordAt, slot_succ]

theorem entryAt_putEntry (memory : Memory) (base : Word64) (entry : IDTEntry) {n other : ℕ}
    (hn : n < 256) (hother : other < 256) :
    entryAt (putEntry memory (slot base (2 * n)) entry) (slot base (2 * other)) =
      if other = n then entry else entryAt memory (slot base (2 * other)) := by
  rw [entryAt_slot, entryAt_slot, putEntry, slot_succ]
  rw [wordAt_store64 _ _ _ (by omega) (by omega), wordAt_store64 _ _ _ (by omega) (by omega),
    wordAt_store64 _ _ _ (by omega) (by omega), wordAt_store64 _ _ _ (by omega) (by omega)]
  by_cases hsame : other = n
  · subst hsame
    simp [ofWords_low_high]
  · simp [hsame, show 2 * other ≠ 2 * n + 1 by omega, show 2 * other + 1 ≠ 2 * n by omega]

/-! ## Every call on the table -/

/-- The last call for each vector. -/
def lastGate (gates : List Gate) : Byte → Option Gate :=
  gates.foldl (fun last gate => Function.update last gate.offset (some gate)) fun _ => none

@[simp]
theorem lastGate_concat (gates : List Gate) (gate : Gate) :
    lastGate (gates ++ [gate]) = Function.update (lastGate gates) gate.offset (some gate) := by
  rw [lastGate, List.foldl_concat, lastGate]

/-- An entry after the calls, of which the last for its vector is `last`. -/
def IDTEntry.after (entry : IDTEntry) (last : Option Gate) : IDTEntry :=
  last.elim entry entry.setGate

theorem setGate_after (entry : IDTEntry) (last : Option Gate) (gate : Gate) :
    (entry.after last).setGate gate = entry.setGate gate := by
  cases last <;> rfl

/-- The entries of the table are translated to the page at `frame`, whatever it holds. -/
def Backs (man : PTableMan) (idtr : IDTR) (frame : Word64) (memory : Memory) : Prop :=
  ∀ memory', AgreeOutside (words frame 0 512) memory memory' → ∀ n : Byte,
    resolve memory' man.dirAddr (idtr.entryAddr n) = some (slot frame (2 * n.toNat))

variable {man : PTableMan} {console : Console} {idtr : IDTR} {frame : Word64} {s s' : Kernel}
  {gates : List Gate}

theorem readEntry_of_backs (hbacks : Backs man idtr frame s.memory) (n : Byte) :
    readEntry man idtr s n = some (entryAt s.memory (slot frame (2 * n.toNat))) := by
  rw [readEntry, hbacks s.memory (AgreeOutside.refl _ _) n]
  rfl

theorem putEntry_agreeOutside (memory : Memory) (base : Word64) (entry : IDTEntry) {n : ℕ}
    (hn : n < 256) :
    AgreeOutside (words base 0 512) memory (putEntry memory (slot base (2 * n)) entry) := by
  have hinside : ∀ index < 512, words base index 1 ⊆ words base 0 512 := by
    rintro index hindex address ⟨-, hlast⟩
    exact ⟨Nat.zero_le _, by omega⟩
  rw [putEntry, slot_succ]
  exact ((store64_agreeOutside _ _ _ (by omega)).mono (hinside _ (by omega))).trans
    ((store64_agreeOutside _ _ _ (by omega)).mono (hinside _ (by omega)))

theorem setGate_of_backs (hbacks : Backs man idtr frame s.memory) (gate : Gate) :
    ∃ s', setGate man idtr s gate = some s' ∧ Backs man idtr frame s'.memory ∧
      ∀ n : Byte, entryAt s'.memory (slot frame (2 * n.toNat)) =
        if n = gate.offset then (entryAt s.memory (slot frame (2 * n.toNat))).setGate gate
        else entryAt s.memory (slot frame (2 * n.toNat)) := by
  have hvector := gate.offset.isLt
  refine ⟨_, by rw [setGate, hbacks s.memory (AgreeOutside.refl _ _)]; rfl, ?_, fun n => ?_⟩
  · intro memory hagree
    exact hbacks memory ((putEntry_agreeOutside _ _ _ hvector).trans hagree)
  · rw [memory_withMemory, entryAt_putEntry _ _ _ hvector n.isLt]
    simp only [BitVec.toNat_inj]
    split_ifs with hsame
    · rw [hsame]
    · rfl

/-- The table after any calls, entry by entry. -/
theorem run_setGate (hbacks : Backs man idtr frame s.memory) (gates : List Gate) :
    ∃ s', run (setGate man idtr) s gates = some s' ∧ Backs man idtr frame s'.memory ∧
      ∀ n : Byte, entryAt s'.memory (slot frame (2 * n.toNat)) =
        (entryAt s.memory (slot frame (2 * n.toNat))).after (lastGate gates n) := by
  induction gates using List.reverseRecOn with
  | nil => exact ⟨s, rfl, hbacks, fun _ => rfl⟩
  | append_singleton gates gate ih =>
      obtain ⟨middle, hrun, hmiddle, hbefore⟩ := ih
      obtain ⟨s', hstep, hlast, hentry⟩ := setGate_of_backs hmiddle gate
      refine ⟨s', ?_, hlast, fun n => ?_⟩
      · rw [run_append, hrun, Option.bind_some, run_cons, hstep]
        rfl
      · rw [hentry n, hbefore n, lastGate_concat]
        by_cases hsame : n = gate.offset
        · rw [if_pos hsame, hsame, Function.update_self, setGate_after]
          rfl
        · rw [if_neg hsame, Function.update_of_ne hsame]

/-! ## The pool of the table -/

theorem resolve_of_translates {memory : Memory} {dirAddr virtAddr : Word64}
    (htranslates : Translates memory dirAddr virtAddr frame) :
    resolve memory dirAddr virtAddr = some (frame + (virtAddr &&& 0xfff)) := by
  obtain ⟨entry, hentry, haddr⟩ := Option.map_eq_some_iff.mp htranslates.leaf
  simp only [resolve]
  rw [if_pos ⟨htranslates.length, htranslates.writable⟩, hentry, Option.map_some, haddr]

/-- Entry `n` of an aligned table lies `16 * n` bytes behind the start of its page. -/
theorem toNat_entryAddr {first : ℕ} (hoffset : idtr.offset.toNat = 4096 * first)
    (hlow : first < 2 ^ 36) (n : Byte) :
    (idtr.entryAddr n).toNat = 4096 * first + 16 * n.toNat := by
  have hn := n.isLt
  have hscaled : (n.setWidth 64 * 16 : Word64).toNat = 16 * n.toNat := by
    rw [BitVec.toNat_mul, BitVec.toNat_setWidth]
    change n.toNat % 2 ^ 64 * 16 % 2 ^ 64 = _
    omega
  rw [IDTR.entryAddr, BitVec.toNat_add, hoffset, hscaled]
  omega

theorem and_page_mask {virtAddr : Word64} {first k : ℕ} (haddr : virtAddr.toNat = 4096 * first + k)
    (hk : k < 4096) : virtAddr &&& 0xfff = BitVec.ofNat 64 k := by
  apply BitVec.eq_of_toNat_eq
  rw [BitVec.toNat_and, BitVec.toNat_ofNat, haddr]
  change (4096 * first + k) &&& (2 ^ 12 - 1) = _
  rw [Nat.and_two_pow_sub_one_eq_mod]
  omega

section Pool

variable {placement : Placement 512} {leaf : ℕ → Option Word64} {first : ℕ}

theorem memory_withVAI (s : Kernel) (VAI : Word64) :
    ({ s with VAI := VAI } : Kernel).memory = s.memory := rfl

/-- Writes to the page of a free frame leave the page tables alone when the pages of the
directory are locked. -/
theorem region_disjoint_frame
    (hlocked : ∀ addr ∈ region man, pageIndex addr < s.allocator.reach →
      s.allocator.Marked (pageIndex addr))
    (haligned : frame.toNat % 4096 = 0) (htracked : pageIndex frame < s.allocator.reach)
    (hunmarked : ¬ s.allocator.Marked (pageIndex frame)) :
    Disjoint (region man) (words frame 0 512) := by
  rw [Set.disjoint_left]
  rintro addr hregion ⟨-, hoffset⟩
  have hsame : pageIndex addr = pageIndex frame := by
    have haddr := addr.isLt
    have hframe := frame.isLt
    unfold offset at hoffset
    unfold pageIndex
    rw [BitVec.toNat_sub] at hoffset
    omega
  exact hunmarked (hsame ▸ hlocked addr hregion (hsame ▸ htracked))

/-- The first page of the pool backs the table, and `getPool` writes page tables and bits
of the page bitmap only. -/
theorem getPool_backs (console : Console) (hready : Ready man placement leaf s)
    (hVAI : s.VAI.toNat = 4096 * first) (hend : first + 2 < 2 ^ 36)
    (hroom : Room man (insertPages placement [first, first + 1]).count)
    (hfree : 2 ≤ (freePages s.allocator (2 ^ 28)).card)
    (hlocked : ∀ addr ∈ region man, pageIndex addr < s.allocator.reach →
      s.allocator.Marked (pageIndex addr)) :
    ∃ s' frame, man.getPool console 0x1000 s = some (s.VAI, s') ∧
      Backs man ⟨0x0fff, s.VAI⟩ frame s'.memory ∧
      AgreeOutside (poolWrites man s.allocator.pageBitmap) s.memory s'.memory ∧
      frame.toNat % 4096 = 0 ∧ pageIndex frame < s.allocator.reach := by
  have hpages : List.range' first 2 = [first, first + 1] := rfl
  rw [← hpages] at hroom
  obtain ⟨s', leaf', hrun, hready', hbacked, -, -, hagree⟩ :=
    mapPages_backed console 2 hready hVAI hend hfree hroom
  obtain ⟨frame, hleaf, haligned, hlow, htracked, hunmarked, -⟩ :=
    hbacked.mapped first List.mem_cons_self
  have hdisjoint := region_disjoint_frame hlocked haligned htracked hunmarked
  have hself : pageAlign frame = frame := by
    apply BitVec.eq_of_toNat_eq
    rw [toNat_pageAlign]
    omega
  have hmemory := memory_withVAI s' (s'.VAI + 0x1000)
  refine ⟨{ s' with VAI := s'.VAI + 0x1000 }, frame, ?_, ?_, ?_, haligned, htracked⟩
  · rw [PTableMan.getPool, show ((0x1000 / 0x1000 + 1 : Word64).setWidth 32).toNat = 2 by decide,
      hrun]
    rfl
  · rw [hmemory]
    intro memory hpage n
    have hn := n.isLt
    have haddr : (IDTR.entryAddr ⟨0x0fff, s.VAI⟩ n).toNat = 4096 * first + 16 * n.toNat :=
      toNat_entryAddr hVAI (by omega) n
    have hrep : Represents man (fun _ => 0) (insertPages placement (List.range' first 2)) leaf'
        (s'.withMemory memory) :=
      represents_of_agreeOutside hready'.represents hroom hdisjoint hpage rfl
    have hvirtual : virtualPage (IDTR.entryAddr ⟨0x0fff, s.VAI⟩ n) = first := by
      unfold virtualPage
      omega
    have htranslates := translates_of_leaf hrep hroom (hvirtual ▸ hleaf) hlow
    rw [hself, memory_withMemory] at htranslates
    rw [resolve_of_translates htranslates, and_page_mask haddr (by omega), slot]
    congr 3
    omega
  · rw [hmemory]
    exact hagree

end Pool

/-! ## What the table holds -/

/-- The entry of the last call for its vector. -/
structure SetBy (gate : Gate) (entry : IDTEntry) : Prop where
  getOffset : entry.getOffset = gate.handler
  selector : entry.selector = gate.selector.setWidth 16
  type_attr : entry.type_attr = gate.type_attr
  ist : entry.ist = 0
  ignore : entry.ignore = 0

/-- An entry that is not present. -/
def IDTEntry.zero : IDTEntry := ⟨0, 0, 0, 0, 0, 0, 0⟩

/-- The table holds what the calls asked for and zero elsewhere. -/
def Intended (gates : List Gate) (table : Byte → IDTEntry) : Prop :=
  ∀ n, match lastGate gates n with
    | some gate => SetBy gate (table n)
    | none => table n = .zero

/-- The page held zero wherever `setGate` does not write, and the last call for each vector
asked for the type and the selector that it writes anyway. -/
def Harmless (gates : List Gate) (stale : Byte → IDTEntry) : Prop :=
  ∀ n, match lastGate gates n with
    | some gate => (stale n).ist = 0 ∧ (stale n).ignore = 0 ∧
        gate.type_attr = intr ∧ gate.selector = 0x08
    | none => stale n = .zero

theorem setBy_setGate_iff (entry : IDTEntry) (gate : Gate) :
    SetBy gate (entry.setGate gate) ↔
      entry.ist = 0 ∧ entry.ignore = 0 ∧ gate.type_attr = intr ∧ gate.selector = 0x08 := by
  have hselector : (0x08 : BitVec 16) = gate.selector.setWidth 16 ↔ gate.selector = 0x08 := by
    bv_omega
  constructor
  · intro hset
    exact ⟨hset.ist, hset.ignore, hset.type_attr.symm, hselector.mp hset.selector⟩
  · rintro ⟨hist, hignore, htype, hsame⟩
    exact ⟨getOffset_setOffset entry gate.handler, hselector.mpr hsame, htype.symm, hist, hignore⟩

theorem intended_after_iff (gates : List Gate) (stale : Byte → IDTEntry) :
    Intended gates (fun n => (stale n).after (lastGate gates n)) ↔ Harmless gates stale := by
  apply forall_congr'
  intro n
  beta_reduce
  cases lastGate gates n with
  | none => exact Iff.rfl
  | some gate => exact setBy_setGate_iff (stale n) gate

/-- After a pool for the table and any calls of `setGate`, the table is what the calls ask
for exactly when the calls and what the page held before allow it. -/
theorem table_intended_iff {placement : Placement 512} {leaf : ℕ → Option Word64} {first : ℕ}
    (console : Console) (hready : Ready man placement leaf s)
    (haligned : s.VAI.toNat = 4096 * first) (hend : first + 2 < 2 ^ 36)
    (hdir : man.dirAddr.toNat % 4096 = 0)
    (hinside : ∀ k ≤ (insertPages placement [first, first + 1]).count, Inside man k)
    (hfree : 2 ≤ (freePages s.allocator (2 ^ 28)).card)
    (hlocked : ∀ addr ∈ region man, pageIndex addr < s.allocator.reach →
      s.allocator.Marked (pageIndex addr)) (gates : List Gate) :
    ∃ idtr pool s' stale table, man.getPool console 0x1000 s = some (idtr.offset, pool) ∧
      AgreeOutside (poolWrites man s.allocator.pageBitmap) s.memory pool.memory ∧
      run (setGate man idtr) pool gates = some s' ∧
      (∀ n, readEntry man idtr pool n = some (stale n)) ∧
      (∀ n, readEntry man idtr s' n = some (table n)) ∧
      (Intended gates table ↔ Harmless gates stale) := by
  obtain ⟨pool, frame, hpool, hbacks, hagree, -, -⟩ :=
    getPool_backs console hready haligned hend (room_of_inside hdir hinside) hfree hlocked
  obtain ⟨s', hrun, hbacks', hentry⟩ := run_setGate hbacks gates
  let stale (n : Byte) : IDTEntry := entryAt pool.memory (slot frame (2 * n.toNat))
  refine ⟨⟨0x0fff, s.VAI⟩, pool, s', stale, fun n => (stale n).after (lastGate gates n), hpool,
    hagree, hrun, readEntry_of_backs hbacks, fun n => ?_, intended_after_iff gates stale⟩
  rw [readEntry_of_backs hbacks', hentry]

/-- The kernel of `withBitmap`, with a byte left over in every page below the directory. -/
def leftOver : Kernel :=
  withBitmap.withMemory fun address =>
    if address.toNat % 4096 = 0x35 ∧ address.toNat < 0x100000 then intr else 0

theorem leftOver_of_region {address : Word64} (haddress : 0x100000 ≤ address.toNat) :
    leftOver.memory address = 0 :=
  if_neg fun hboth => absurd hboth.2 (not_lt.mpr haddress)

theorem ready_leftOver :
    Ready ⟨0x100000, 0x10000⟩ (Placement.initial 512) (fun _ => none) leftOver where
  represents := by
    refine represents_initial rfl fun index hindex => ?_
    change load64 leftOver.memory (slot 0x100000 index) = 0
    apply load64_of_bytes
    intro byte hbyte
    rw [leftOver_of_region]
    · simp [byteOf]
    rw [slot, BitVec.add_assoc, ← BitVec.ofNat_add, BitVec.toNat_add, BitVec.toNat_ofNat]
    change _ ≤ (0x100000 + _) % 2 ^ 64
    omega
  sized := ready_withBitmap.sized
  apart := ready_withBitmap.apart
  behind := fun page _ => Nat.zero_le page

theorem two_le_freePages_leftOver : 2 ≤ (freePages leftOver.allocator (2 ^ 28)).card := by
  have hsubset : {0, 1} ⊆ freePages leftOver.allocator (2 ^ 28) := by
    intro page hpage
    simp only [Finset.mem_insert, Finset.mem_singleton] at hpage
    rcases hpage with rfl | rfl <;> exact mem_freePages.mpr ⟨by decide, by decide⟩
  exact Finset.card_le_card hsubset

theorem room_leftOver :
    Room ⟨0x100000, 0x10000⟩ (insertPages (Placement.initial 512) [7, 8]).count := by
  have hcount : (insertPages (Placement.initial 512) [7, 8]).count = 3 := by decide +kernel
  rw [hcount]
  exact ⟨by decide, by decide, by decide, by decide, by decide⟩

/-- No page of the directory is tracked. -/
theorem locked_leftOver : ∀ addr ∈ region ⟨0x100000, 0x10000⟩,
    pageIndex addr < leftOver.allocator.reach → leftOver.allocator.Marked (pageIndex addr) := by
  intro addr hregion htracked
  have hfirst : 0x100000 ≤ addr.toNat := hregion.1
  have hlast : pageIndex addr < 32 := htracked
  unfold pageIndex at hlast
  omega

def someHandlers : Handlers := ⟨0x2000, 0x2100, 0x2200, 0x2300⟩

theorem table_intended_interuptInit :
    ∃ idtr pool s' stale table,
      PTableMan.getPool headless ⟨0x100000, 0x10000⟩ 0x1000 leftOver =
        some (idtr.offset, pool) ∧
      AgreeOutside (poolWrites ⟨0x100000, 0x10000⟩ ⟨4, 0x8000⟩) leftOver.memory pool.memory ∧
      run (setGate ⟨0x100000, 0x10000⟩ idtr) pool someHandlers.gates = some s' ∧
      (∀ n, readEntry ⟨0x100000, 0x10000⟩ idtr pool n = some (stale n)) ∧
      (∀ n, readEntry ⟨0x100000, 0x10000⟩ idtr s' n = some (table n)) ∧
      (Intended someHandlers.gates table ↔ Harmless someHandlers.gates stale) :=
  table_intended_iff headless ready_leftOver (show leftOver.VAI.toNat = 4096 * 7 by decide)
    (by decide) (by decide) (fun _ hk => Room.inside_table room_leftOver hk)
    two_le_freePages_leftOver locked_leftOver someHandlers.gates

/-- The byte that a page of the allocator holds at `0x35` is still there after `getPool`. -/
theorem leftOver_kept {memory : Memory} (haligned : frame.toNat % 4096 = 0)
    (htracked : pageIndex frame < 32)
    (hagree : AgreeOutside (poolWrites ⟨0x100000, 0x10000⟩ ⟨4, 0x8000⟩) leftOver.memory memory) :
    memory (frame + 0x35) = intr := by
  unfold pageIndex at htracked
  have haddr : (frame + 0x35).toNat = frame.toNat + 0x35 := by
    rw [BitVec.toNat_add]
    change (frame.toNat + 0x35) % 2 ^ 64 = _
    omega
  rw [hagree]
  · exact if_pos ⟨by omega, by omega⟩
  · rintro (hregion | hstore)
    · have hfirst : 0x100000 ≤ (frame + 0x35).toNat := hregion.1
      omega
    · change (frame + 0x35 - 0x8000).toNat < 4 at hstore
      bv_omega

theorem type_attr_third (memory : Memory) (base : Word64) :
    (entryAt memory (slot base 6)).type_attr = memory (base + 0x35) :=
  (byteOf_load64 memory (slot base 6) (show 5 < 8 by decide)).trans
    (congrArg memory (BitVec.add_assoc base _ _))

/-- `interuptInit` leaves vector 3, which it does not set, with the present bit and the type
that the page held. -/
theorem interuptInit_stale_gate :
    ∃ idtr s' table, interuptInit headless ⟨0x100000, 0x10000⟩ someHandlers leftOver =
        some (idtr, s') ∧
      (∀ n, readEntry ⟨0x100000, 0x10000⟩ idtr s' n = some (table n)) ∧
      (table 3).type_attr = intr ∧ ¬ Intended someHandlers.gates table := by
  obtain ⟨pool, frame, hpool, hbacks, hagree, haligned, htracked⟩ :=
    getPool_backs headless ready_leftOver (show leftOver.VAI.toNat = 4096 * 7 by decide)
      (by decide) room_leftOver two_le_freePages_leftOver locked_leftOver
  obtain ⟨s', hrun, hbacks', hentry⟩ := run_setGate hbacks someHandlers.gates
  have hlast : lastGate someHandlers.gates 3 = none := by decide
  have hthird := hentry 3
  rw [hlast] at hthird
  have htype : (entryAt s'.memory (slot frame 6)).type_attr = intr :=
    (congrArg IDTEntry.type_attr hthird).trans
      ((type_attr_third pool.memory frame).trans (leftOver_kept haligned htracked hagree))
  refine ⟨⟨0x0fff, leftOver.VAI⟩, s', _, ?_, readEntry_of_backs hbacks', htype, fun hintended => ?_⟩
  · rw [interuptInit, hpool, Option.bind_some]
    change Option.map _ (run (setGate _ ⟨0x0fff, leftOver.VAI⟩) pool _) = _
    rw [hrun]
    rfl
  · have hzero := hintended 3
    rw [hlast] at hzero
    have hclear : (entryAt s'.memory (slot frame 6)).type_attr = 0 :=
      congrArg IDTEntry.type_attr hzero
    rw [htype] at hclear
    exact absurd hclear (by decide)

end RedX.InterruptTable
