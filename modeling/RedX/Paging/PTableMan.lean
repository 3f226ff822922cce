import RedX.Core.WordArray
import RedX.Libs.HexString
import RedX.Memory.PageAllocation
import RedX.Paging.DirEntry
import RedX.Screen.TextRenderer

/-!
# `class pTableMan`

The page-table manager of `memory/paging.cpp`.  `map` reports a frame that is
not locked on the screen, follows or creates three tables and writes the last
entry.  The three create-or-follow blocks of the source are one step,
`nextTable`, on the table and index of their level.
-/

namespace RedX.PageTables

open RedX.MachineWord
open RedX.ByteMemory
open RedX.WordArray
open RedX.CountedLoop
open RedX.HexString
open RedX.PageBitmap
open RedX.PageAllocation
open RedX.TextRenderer
open RedX.TableEntry

/-- The globals that the memory code shares. -/
structure Kernel where
  allocator : PageAllocator
  cur : Cursor
  PDI : Word32
  VAI : Word64

def Kernel.memory (s : Kernel) : Memory := s.allocator.memory

def Kernel.withMemory (s : Kernel) (memory : Memory) : Kernel :=
  { s with allocator := { s.allocator with memory := memory } }

@[simp]
theorem memory_withMemory (s : Kernel) (memory : Memory) :
    (s.withMemory memory).memory = memory := rfl

/-- What the report of an unlocked frame uses: `basicRender`, the static buffer of
`toHString` and the stack above its argument. -/
structure Console where
  renderer : BasicRenderer
  hexOutput64 : Word64
  beyond : ℕ → Byte

def Console.print (console : Console) (str : List Byte) (color : Word32) (s : Kernel) : Kernel :=
  let page := console.renderer.print color str (s.cur, s.memory)
  { s.withMemory page.2 with cur := page.1 }

/-- `basicRender.print(toHString(number), color)` -/
def Console.printHex (console : Console) (number : Word64) (color : Word32) (s : Kernel) :
    Kernel :=
  let s := s.withMemory (toHString console.hexOutput64 console.beyond number s.memory)
  console.print (stringAt s.memory console.hexOutput64 128) color s

/-- The first branch of `map`. -/
def Console.reportUnlocked (console : Console) (virtualMemory physicalMemory : Word64)
    (s : Kernel) : Kernel :=
  let s := console.print (literal "Mapped unlocked page ") 0xFFFFFFFF s
  let s := console.printHex physicalMemory 0xFFFFFFFF s
  let s := console.print (literal " to ") 0xFFFFFFFF s
  let s := console.printHex virtualMemory 0xFFFFFFFF s
  console.print (literal ",") 0xFF0000FF s

/-- `set(void* A, uint8_t V, uint64_t C)` -/
def set (memory : Memory) (A : Word64) (V : Byte) (C : Word64) : Memory :=
  forLoop C.toNat (fun i memory => store8 memory (A + BitVec.ofNat 64 i) V) memory

structure PTableMan where
  dirAddr : Word64
  dirSize : Word64

/-- `pTableMan::init` -/
def PTableMan.init (directoryAddress directorySize : Word64) : PTableMan :=
  ⟨directoryAddress, directorySize⟩

/-- What `allocateEntry` returns when it has stepped `PDI` to the given value. -/
def PTableMan.entryAt (man : PTableMan) (PDI : Word32) : Word64 :=
  if PDI.signExtend 64 > (man.dirAddr + man.dirSize) / 0x1000 then 0
  else man.dirAddr + (PDI * 0x1000).signExtend 64

/-- `pTableMan::allocateEntry` -/
def PTableMan.allocateEntry (man : PTableMan) (s : Kernel) : Word64 × Kernel :=
  let s := { s with PDI := s.PDI + 1 }
  (man.entryAt s.PDI, s)

/-- `table->entries[index]` -/
def Kernel.entry (s : Kernel) (table index : Word64) : DirEntry :=
  ⟨load64 s.memory (table + index * 8)⟩

def Kernel.putEntry (s : Kernel) (table index : Word64) (entry : DirEntry) : Kernel :=
  s.withMemory (store64 s.memory (table + index * 8) entry.V)

/-- One of the blocks of `map` that follow an entry to the next table, or create that
table when the entry is not present. -/
def PTableMan.nextTable (man : PTableMan) (table index : Word64) (s : Kernel) :
    Word64 × Kernel :=
  let PDE := s.entry table index
  if !PDE.get .P then
    let allocated := man.allocateEntry s
    let s := allocated.2.withMemory (set allocated.2.memory allocated.1 0 0x1000)
    (allocated.1, s.putEntry table index (PDE.pointTo allocated.1))
  else (PDE.getAddr, s)

/-- The report at the start of `map`, made when the frame is not locked. -/
def Console.checkLocked (console : Console) (virtualMemory physicalMemory : Word64)
    (s : Kernel) : Kernel :=
  if s.allocator.pageBitmap.get s.memory (pageAlign physicalMemory / 0x1000) = false then
    console.reportUnlocked virtualMemory physicalMemory s
  else s

/-- `pTableMan::map` -/
def PTableMan.map (console : Console) (man : PTableMan) (virtualMemory physicalMemory : Word64)
    (s : Kernel) : Kernel :=
  let s := console.checkLocked virtualMemory physicalMemory s
  let indexer := pMapIndexer virtualMemory
  let PDP := man.nextTable man.dirAddr indexer.PDP_i s
  let PD := man.nextTable PDP.1 indexer.PD_i PDP.2
  let PT := man.nextTable PD.1 indexer.PT_i PD.2
  PT.2.putEntry PT.1 indexer.P_i ((PT.2.entry PT.1 indexer.P_i).pointTo physicalMemory)

/-- The tables that `map` follows or creates below the root. -/
def PTableMan.followed (console : Console) (man : PTableMan)
    (virtualMemory physicalMemory : Word64) (s : Kernel) : List Word64 :=
  let s := console.checkLocked virtualMemory physicalMemory s
  let indexer := pMapIndexer virtualMemory
  let PDP := man.nextTable man.dirAddr indexer.PDP_i s
  let PD := man.nextTable PDP.1 indexer.PD_i PDP.2
  let PT := man.nextTable PD.1 indexer.PT_i PD.2
  [PDP.1, PD.1, PT.1]

/-- The loop of `getPool`, `none` where the allocator runs out of memory. -/
def PTableMan.mapPages (console : Console) (man : PTableMan) : ℕ → Kernel → Option Kernel
  | 0, s => some s
  | pages + 1, s =>
      s.allocator.getPage.bind fun granted =>
        let s := man.map console s.VAI granted.1 { s with allocator := granted.2 }
        PTableMan.mapPages console man pages
          { s with cur := s.cur.newLine, VAI := s.VAI + 0x1000 }

/-- `pTableMan::getPool` -/
def PTableMan.getPool (console : Console) (man : PTableMan) (size : Word64) (s : Kernel) :
    Option (Word64 × Kernel) :=
  let pages : Word32 := (size / 0x1000 + 1).setWidth 32
  (man.mapPages console pages.toNat s).map fun s' =>
    (s.VAI, { s' with VAI := s'.VAI + 0x1000 })

/-! ## The report touches the screen and one static buffer -/

/-- The memory that `map` writes besides page tables. -/
def Console.touched (console : Console) : Set Word64 :=
  console.renderer.buffer.pixels ∪ written console.hexOutput64 15

/-- A step of the report: memory changes in `console.touched` only and the page-table
manager and the page bitmap stay as they are. -/
structure Reported (console : Console) (s s' : Kernel) : Prop where
  memory : AgreeOutside console.touched s.memory s'.memory
  PDI : s'.PDI = s.PDI
  pageBitmap : s'.allocator.pageBitmap = s.allocator.pageBitmap

variable {console : Console} {s s' s'' : Kernel}

theorem Reported.refl (s : Kernel) : Reported console s s := ⟨AgreeOutside.refl _ _, rfl, rfl⟩

theorem Reported.trans (hfirst : Reported console s s') (hsecond : Reported console s' s'') :
    Reported console s s'' :=
  ⟨hfirst.memory.trans hsecond.memory, hsecond.PDI.trans hfirst.PDI,
    hsecond.pageBitmap.trans hfirst.pageBitmap⟩

theorem print_reported (str : List Byte) (color : Word32) (s : Kernel) :
    Reported console s (console.print str color s) :=
  ⟨(print_agreeOutside console.renderer color str (s.cur, s.memory)).mono
    Set.subset_union_left, rfl, rfl⟩

theorem printHex_reported (number : Word64) (color : Word32) (s : Kernel) :
    Reported console s (console.printHex number color s) := by
  have hdigits : Reported console s
      (s.withMemory (toHString console.hexOutput64 console.beyond number s.memory)) :=
    ⟨(writeHex_agreeOutside console.hexOutput64 15 _ s.memory).mono Set.subset_union_right,
      rfl, rfl⟩
  exact hdigits.trans (print_reported _ _ _)

theorem reportUnlocked_reported (virtualMemory physicalMemory : Word64) (s : Kernel) :
    Reported console s (console.reportUnlocked virtualMemory physicalMemory s) :=
  ((((print_reported _ _ _).trans (printHex_reported _ _ _)).trans
    (print_reported _ _ _)).trans (printHex_reported _ _ _)).trans (print_reported _ _ _)

theorem checkLocked_reported (virtualMemory physicalMemory : Word64) (s : Kernel) :
    Reported console s (console.checkLocked virtualMemory physicalMemory s) := by
  unfold Console.checkLocked
  split_ifs
  · exact reportUnlocked_reported virtualMemory physicalMemory s
  · exact Reported.refl s

/-- Nothing is reported about a locked frame. -/
theorem checkLocked_of_get {virtualMemory physicalMemory : Word64}
    (hlocked : s.allocator.pageBitmap.get s.memory (pageAlign physicalMemory / 0x1000) = true) :
    console.checkLocked virtualMemory physicalMemory s = s := by
  rw [Console.checkLocked, hlocked]
  rfl

/-! ## What `map` keeps of the other globals -/

/-- Between the two states the allocator changes in memory only, and `VAI` not at all. -/
structure Rewritten (s s' : Kernel) : Prop where
  allocator : s'.allocator = { s.allocator with memory := s'.memory }
  VAI : s'.VAI = s.VAI

theorem Rewritten.refl (s : Kernel) : Rewritten s s := ⟨rfl, rfl⟩

theorem Rewritten.trans (hfirst : Rewritten s s') (hsecond : Rewritten s' s'') :
    Rewritten s s'' :=
  ⟨by rw [hsecond.allocator, hfirst.allocator], hsecond.VAI.trans hfirst.VAI⟩

theorem Rewritten.pageBitmap (hrewritten : Rewritten s s') :
    s'.allocator.pageBitmap = s.allocator.pageBitmap := by
  rw [hrewritten.allocator]

theorem Rewritten.pageI (hrewritten : Rewritten s s') :
    s'.allocator.pageI = s.allocator.pageI := by
  rw [hrewritten.allocator]

theorem print_rewritten (str : List Byte) (color : Word32) (s : Kernel) :
    Rewritten s (console.print str color s) := ⟨rfl, rfl⟩

theorem printHex_rewritten (number : Word64) (color : Word32) (s : Kernel) :
    Rewritten s (console.printHex number color s) := ⟨rfl, rfl⟩

theorem checkLocked_rewritten (virtualMemory physicalMemory : Word64) (s : Kernel) :
    Rewritten s (console.checkLocked virtualMemory physicalMemory s) := by
  rw [Console.checkLocked]
  split_ifs
  · exact ((((print_rewritten _ _ _).trans (printHex_rewritten _ _ _)).trans
      (print_rewritten _ _ _)).trans (printHex_rewritten _ _ _)).trans (print_rewritten _ _ _)
  · exact Rewritten.refl s

theorem putEntry_rewritten (s : Kernel) (table index : Word64) (entry : DirEntry) :
    Rewritten s (s.putEntry table index entry) := ⟨rfl, rfl⟩

theorem nextTable_rewritten (man : PTableMan) (table index : Word64) (s : Kernel) :
    Rewritten s (man.nextTable table index s).2 := by
  rw [PTableMan.nextTable]
  split_ifs
  · exact ⟨rfl, rfl⟩
  · exact Rewritten.refl s

theorem map_rewritten (console : Console) (man : PTableMan)
    (virtualMemory physicalMemory : Word64) (s : Kernel) :
    Rewritten s (man.map console virtualMemory physicalMemory s) := by
  rw [PTableMan.map]
  exact ((((checkLocked_rewritten _ _ s).trans (nextTable_rewritten _ _ _ _)).trans
    (nextTable_rewritten _ _ _ _)).trans (nextTable_rewritten _ _ _ _)).trans
    (putEntry_rewritten _ _ _ _)

/-! ## `set` -/

theorem set_eq_store (memory : Memory) (A : Word64) (V : Byte) (C : Word64) :
    set memory A V C = store memory A C.toNat fun _ => V := by
  have hpasses : ∀ count ≤ C.toNat,
      forLoop count (fun i memory => store8 memory (A + BitVec.ofNat 64 i) V) memory =
        store memory A count fun _ => V := by
    intro count
    induction count with
    | zero => exact fun _ => (store_zero _ _ _).symm
    | succ count ih =>
        intro hcount
        have hlimit := C.isLt
        rw [forLoop_succ, ih (by omega), store8_store _ _ _ (by omega)]
  exact hpasses C.toNat le_rfl

/-! ## A machine without a screen -/

/-- A console with an empty frame buffer and the static buffer at `0x200000`. -/
def headless : Console where
  renderer := ⟨⟨0, 0, 0, 0, 0⟩, ⟨16, 0⟩⟩
  hexOutput64 := 0x200000
  beyond _ := 0

/-- The kernel before any page is mapped, with an empty page bitmap. -/
def unmapped (memory : Memory) : Kernel where
  allocator := ⟨memory, ⟨0, 0⟩, 0, 0, 0, true, 0, 0⟩
  cur := ⟨0, 0, 0, 0⟩
  PDI := 0
  VAI := 0

theorem toNat_of_mem_headless {address : Word64} (hmem : address ∈ headless.touched) :
    0x1fff00 ≤ address.toNat := by
  rcases hmem with hpixel | hwritten
  · rw [pixels_eq_empty (show (0 : Word64) + 0 = 0 from rfl)] at hpixel
    exact hpixel.elim
  · have hplace := toNat_of_mem_written (by decide) (by decide) hwritten
    change 0x200000 + 1 ≤ _ ∧ _ at hplace
    omega

end RedX.PageTables
