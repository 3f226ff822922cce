import RedX.Paging.MapRun

/-!
# Address translation

The four-level walk of the processor and what it finds after a run of `map`: the
frame that was last mapped at the page, or an entry that is not present.
-/

namespace RedX.Translation

open RedX.MachineWord
open RedX.ByteMemory
open RedX.RadixTree
open RedX.TableEntry
open RedX.PageTables
open RedX.PageTree
open RedX.MapRun

/-! ## The walk -/

/-- The flag as the processor reads it. -/
def hasFlag (entry : DirEntry) (flag : PTF) : Bool := entry.V.getLsbD flag.value

/-- The entries that a walk reads: one in each table, down to the first that is not
present. -/
def walk (memory : Memory) (table : Word64) : List Word64 → List DirEntry
  | [] => []
  | index :: indices =>
      let entry : DirEntry := ⟨load64 memory (table + index * 8)⟩
      entry :: if hasFlag entry .P then walk memory entry.getAddr indices else []

def indices (virtAddr : Word64) : List Word64 :=
  let indexer := pMapIndexer virtAddr
  [indexer.PDP_i, indexer.PD_i, indexer.PT_i, indexer.P_i]

/-- The walk reads four entries, all present and writable and none of them a large
page, and ends at `frame`. -/
structure Translates (memory : Memory) (dirAddr virtAddr frame : Word64) : Prop where
  length : (walk memory dirAddr (indices virtAddr)).length = 4
  writable : ∀ entry ∈ walk memory dirAddr (indices virtAddr),
    hasFlag entry .P = true ∧ hasFlag entry .RW = true ∧ hasFlag entry .LP = false
  leaf : (walk memory dirAddr (indices virtAddr)).getLast?.map DirEntry.getAddr = some frame

/-- The walk ends at an entry that is not present. -/
def Unmapped (memory : Memory) (dirAddr virtAddr : Word64) : Prop :=
  ∃ entry, (walk memory dirAddr (indices virtAddr)).getLast? = some entry ∧
    hasFlag entry .P = false

/-! ## Walking the tree -/

section Tree

variable {man : PTableMan} {root : ℕ → Word64} {placement : Placement 512}
  {leaf : ℕ → Option Word64} {s : Kernel} {level key k : ℕ} {index : Word64}

theorem walk_cons (hrep : Represents man root placement leaf s) (hroot : NonePresent root)
    (hlevel : level ≤ 3) (htable : placement.table level (prefixAt 512 3 level key) = some k)
    (hindex : index.toNat = digitAt 512 3 level key) (rest : List Word64) :
    let child := target 3 (tableAddr man) placement leaf (level + 1)
      (prefixAt 512 3 (level + 1) key)
    let entry : DirEntry := ⟨link root level (digitAt 512 3 level key) child⟩
    walk s.memory (tableAddr man k) (index :: rest) =
        entry :: (if child.isSome then walk s.memory entry.getAddr rest else []) ∧
      hasFlag entry .P = child.isSome := by
  intro child entry
  have hpresent : hasFlag entry .P = child.isSome :=
    link_present child hroot (digitAt_lt (by omega))
  have hentry : (⟨load64 s.memory (tableAddr man k + index * 8)⟩ : DirEntry) = entry :=
    hrep.entry hlevel htable hindex
  refine ⟨?_, hpresent⟩
  rw [walk, hentry]
  simp only [hpresent]

/-- Where the next table exists, the walk goes on there. -/
theorem walk_cons_table (hrep : Represents man root placement leaf s) (hroot : NonePresent root)
    (hroom : Room man placement.count) (hlevel : level + 1 ≤ 3) {next : ℕ}
    (htable : placement.table level (prefixAt 512 3 level key) = some k)
    (hnext : placement.table (level + 1) (prefixAt 512 3 (level + 1) key) = some next)
    (hindex : index.toNat = digitAt 512 3 level key) (rest : List Word64) :
    walk s.memory (tableAddr man k) (index :: rest) =
      (unused root level (digitAt 512 3 level key)).pointTo (tableAddr man next) ::
        walk s.memory (tableAddr man next) rest := by
  obtain ⟨hwalk, -⟩ := walk_cons hrep hroot (by omega) htable hindex rest
  have hfollow := hroom.getAddr_pointTo (placement.bounded hnext)
    (unused root level (digitAt 512 3 level key))
  rw [target, if_pos hlevel, hnext] at hwalk
  rw [hwalk]
  change _ :: walk s.memory ((unused root level _).pointTo (tableAddr man next)).getAddr rest = _
  rw [hfollow]
  rfl

/-- On the way to a mapped page every table exists. -/
theorem table_of_leaf (hrep : Represents man root placement leaf s) (hleaf : (leaf key).isSome)
    (hlevel : level ≤ 3) : ∃ k, placement.table level (prefixAt 512 3 level key) = some k := by
  have hheld := hrep.layout.held hleaf
  have hleading : prefixAt 512 3 3 key = key / 512 := by simp [prefixAt]
  rw [← hleading] at hheld
  exact Option.isSome_iff_exists.mp (isSome_of_le (by omega) hlevel (by omega) hheld)

/-- The indices that a walk to `key` uses from `level` on. -/
def IndicesFrom (key : ℕ) : ℕ → List Word64 → Prop
  | level, [] => level = 4
  | level, index :: rest =>
      index.toNat = digitAt 512 3 level key ∧ IndicesFrom key (level + 1) rest

theorem IndicesFrom.length {remaining : List Word64}
    (hremaining : IndicesFrom key level remaining) : level + remaining.length = 4 := by
  induction remaining generalizing level with
  | nil => exact hremaining
  | cons index rest ih =>
      have hrest := ih hremaining.2
      rw [List.length_cons]
      omega

theorem indicesFrom_indices (virtAddr : Word64) :
    IndicesFrom (virtualPage virtAddr) 0 (indices virtAddr) := by
  obtain ⟨hPDP, hPD, hPT, hP⟩ := toNat_pMapIndexer virtAddr
  refine ⟨hPDP, hPD, ?_, ?_, rfl⟩
  · rw [hPT, digitAt, pow_one]
  · rw [hP, digitAt, pow_zero, Nat.div_one]

theorem getLast?_cons_walk {entry last : DirEntry} {path : List DirEntry}
    (hlast : path.getLast? = some last) : (entry :: path).getLast? = some last := by
  rw [List.getLast?_cons, hlast]
  rfl

/-- From any level on, the walk to a mapped page goes through all remaining levels, and
its last entry holds the frame. -/
theorem walk_of_leaf (hrep : Represents man root placement leaf s) (hroot : NonePresent root)
    (hroom : Room man placement.count) {frame : Word64} (hleaf : leaf key = some frame)
    (hlow : frame.toNat < 2 ^ 40) {remaining : List Word64}
    (hremaining : IndicesFrom key level remaining) (hlevel : level ≤ 3)
    (htable : placement.table level (prefixAt 512 3 level key) = some k) :
    let path := walk s.memory (tableAddr man k) remaining
    path.length = 4 - level ∧
    (∀ entry ∈ path, ∃ level index address, entry = (unused root level index).pointTo address) ∧
    ∃ entry, path.getLast? = some entry ∧ entry.getAddr = pageAlign frame := by
  induction remaining generalizing level k with
  | nil =>
      change level = 4 at hremaining
      omega
  | cons index rest ih =>
      obtain ⟨hindex, hrest⟩ := hremaining
      intro path
      by_cases hinner : level + 1 ≤ 3
      · obtain ⟨next, hnext⟩ := table_of_leaf hrep (by rw [hleaf]; rfl) hinner
        obtain ⟨hlength, hentries, last, hlast, haddr⟩ := ih hrest hinner hnext
        have hpath : path = _ :: walk s.memory (tableAddr man next) rest :=
          walk_cons_table hrep hroot hroom hinner htable hnext hindex rest
        rw [hpath]
        refine ⟨?_, ?_, last, getLast?_cons_walk hlast, haddr⟩
        · rw [List.length_cons, hlength]
          omega
        · intro entry hentry
          rcases List.mem_cons.mp hentry with rfl | hentry
          · exact ⟨level, _, _, rfl⟩
          · exact hentries entry hentry
      · obtain rfl : level = 3 := by omega
        obtain rfl : rest = [] := List.length_eq_zero_iff.mp (by simpa using hrest.length)
        obtain ⟨hwalk, -⟩ := walk_cons hrep hroot le_rfl htable hindex []
        rw [target, if_neg (by omega), prefixAt_leaf, hleaf] at hwalk
        have hpath : path = [(unused root 3 (digitAt 512 3 3 key)).pointTo frame] := hwalk
        rw [hpath]
        refine ⟨rfl, ?_, _, rfl, getAddr_pointTo _ hlow⟩
        intro entry hentry
        exact ⟨3, _, frame, List.mem_singleton.mp hentry⟩

/-- From any level on, the walk to a page that is not mapped ends at an entry that is
not present. -/
theorem walk_of_none (hrep : Represents man root placement leaf s) (hroot : NonePresent root)
    (hroom : Room man placement.count) (hleaf : leaf key = none) {remaining : List Word64}
    (hremaining : IndicesFrom key level remaining) (hlevel : level ≤ 3)
    (htable : placement.table level (prefixAt 512 3 level key) = some k) :
    ∃ entry, (walk s.memory (tableAddr man k) remaining).getLast? = some entry ∧
      hasFlag entry .P = false := by
  induction remaining generalizing level k with
  | nil =>
      change level = 4 at hremaining
      omega
  | cons index rest ih =>
      obtain ⟨hindex, hrest⟩ := hremaining
      obtain ⟨hwalk, hpresent⟩ := walk_cons hrep hroot hlevel htable hindex rest
      cases hchild : target 3 (tableAddr man) placement leaf (level + 1)
        (prefixAt 512 3 (level + 1) key) with
      | none =>
          rw [hchild] at hwalk hpresent
          exact ⟨_, by rw [hwalk]; rfl, hpresent⟩
      | some address =>
          have hinner : level + 1 ≤ 3 := by
            by_contra hdeep
            obtain rfl : level = 3 := by omega
            rw [target, if_neg hdeep, prefixAt_leaf, hleaf] at hchild
            cases hchild
          rw [target, if_pos hinner, Option.map_eq_some_iff] at hchild
          obtain ⟨next, hnext, -⟩ := hchild
          obtain ⟨entry, hlast, habsent⟩ := ih hrest hinner hnext
          refine ⟨entry, ?_, habsent⟩
          rw [walk_cons_table hrep hroot hroom hinner htable hnext hindex rest]
          exact getLast?_cons_walk hlast

end Tree

/-! ## What a run of `map` leaves behind -/

/-- The table that `allocateEntry` hands out when it has stepped `PDI` to `k` is not
NULL and lies in the directory region, below `2^40`; table 0 is the root. -/
structure Inside (man : PTableMan) (k : ℕ) : Prop where
  granted : 0 < k → man.entryAt (BitVec.ofNat 32 k) ≠ 0
  start : man.dirAddr.toNat ≤ (man.entryAt (BitVec.ofNat 32 k)).toNat
  finish : (man.entryAt (BitVec.ofNat 32 k)).toNat + 4096 ≤
    man.dirAddr.toNat + man.dirSize.toNat
  low : (man.entryAt (BitVec.ofNat 32 k)).toNat < 2 ^ 40

section Region

variable {man : PTableMan} {count : ℕ}

theorem Room.inside_table (hroom : Room man count) {k : ℕ} (hk : k ≤ count) : Inside man k := by
  have hinside := hroom.inside
  have hsmall := hroom.numbered
  have hnumber : (BitVec.ofNat 32 k).toNat = k := by
    rw [BitVec.toNat_ofNat]
    omega
  have hentry : man.entryAt (BitVec.ofNat 32 k) = tableAddr man k := by
    rw [Room.entryAt (by rw [hnumber]; exact hroom.mono hk), hnumber]
  have haddr := hroom.toNat_tableAddr hk
  constructor
  · intro hpos hnull
    rw [← hentry, hnull] at haddr
    change 0 = _ at haddr
    omega
  · rw [hentry]
    omega
  · rw [hentry]
    omega
  · rw [hentry]
    exact lt_of_lt_of_le (by omega) hroom.low

private theorem aligned_end_le {base pages : ℕ} (haligned : base % 4096 = 0)
    (hlow : base + 4096 * pages < 2 ^ 40) : base + 4096 * (pages + 1) ≤ 2 ^ 40 := by
  have hpages : base / 4096 + pages < 2 ^ 28 := by omega
  omega

/-- Table `2^19` would lie before the directory or beyond `2^40`. -/
theorem not_inside_wrapped (man : PTableMan) : ¬ Inside man (2 ^ 19) := by
  intro hinside
  have hgranted := hinside.granted (by omega)
  have hstart := hinside.start
  have hlow := hinside.low
  unfold PTableMan.entryAt at hgranted hstart hlow
  split_ifs at hgranted hstart hlow
  · exact hgranted rfl
  · have hoffset : ((BitVec.ofNat 32 (2 ^ 19) * 0x1000).signExtend 64).toNat =
        2 ^ 64 - 2 ^ 31 := by
      decide
    rw [BitVec.toNat_add, hoffset] at hstart hlow
    have hdir := man.dirAddr.isLt
    omega

/-- Where the tables up to a number are all inside the region, there is room for them. -/
theorem room_of_inside (haligned : man.dirAddr.toNat % 4096 = 0)
    (hinside : ∀ k ≤ count, Inside man k) : Room man count := by
  have hsmall : count < 2 ^ 19 := by
    by_contra hlarge
    exact not_inside_wrapped man (hinside _ (by omega))
  obtain ⟨hgranted, hstart, hfinish, hlow⟩ := hinside count le_rfl
  have hnumber : (BitVec.ofNat 32 count).toNat = count := by
    rw [BitVec.toNat_ofNat]
    omega
  have hnumbered : count ≤ ((man.dirAddr + man.dirSize) / 0x1000).toNat := by
    by_contra hover
    apply hgranted (by omega)
    rw [PTableMan.entryAt, if_pos]
    rw [gt_iff_lt, BitVec.lt_def, toNat_signExtend_of_lt (by omega), hnumber]
    omega
  have haddr : (man.entryAt (BitVec.ofNat 32 count)).toNat =
      (man.dirAddr.toNat + 4096 * count) % 2 ^ 64 := by
    rw [PTableMan.entryAt, if_neg, BitVec.toNat_add, toNat_shift_twelve (by omega), hnumber]
    rw [gt_iff_lt, BitVec.lt_def, toNat_signExtend_of_lt (by omega), hnumber]
    omega
  have hdir := man.dirAddr.isLt
  rw [haddr] at hstart hfinish hlow
  rw [show (man.dirAddr.toNat + 4096 * count) % 2 ^ 64 = man.dirAddr.toNat + 4096 * count by
    omega] at hfinish hlow
  exact ⟨haligned, by omega, aligned_end_le haligned hlow, hsmall, hnumbered⟩

end Region

section Run

variable {man : PTableMan} {console : Console} {s : Kernel} {calls : List Call}

theorem flags_pointTo_cleared (level index : ℕ) (address : Word64) :
    let entry := (unused (fun _ => 0) level index).pointTo address
    hasFlag entry .P = true ∧ hasFlag entry .RW = true ∧ hasFlag entry .LP = false := by
  have hunused : (unused (fun _ => 0) level index).V = 0 := ite_self 0
  refine ⟨?_, ?_, ?_⟩
  · rw [hasFlag, getLsbD_pointTo _ _ (by decide)]
    rfl
  · rw [hasFlag, getLsbD_pointTo _ _ (by decide)]
    rfl
  · rw [hasFlag, getLsbD_pointTo _ _ (by decide), hunused]
    rfl

variable {placement : Placement 512} {leaf : ℕ → Option Word64} {virtAddr frame : Word64}

theorem table_virtualPage (placement : Placement 512) (virtAddr : Word64) :
    placement.table 0 (prefixAt 512 3 0 (virtualPage virtAddr)) = some 0 := by
  rw [prefixAt_zero, placement.root]
  unfold virtualPage
  omega

/-- A page with a leaf is translated to its frame. -/
theorem translates_of_leaf (hrep : Represents man (fun _ => 0) placement leaf s)
    (hroom : Room man placement.count) (hleaf : leaf (virtualPage virtAddr) = some frame)
    (hlow : frame.toNat < 2 ^ 40) :
    Translates s.memory man.dirAddr virtAddr (pageAlign frame) := by
  obtain ⟨hlength, hentries, entry, hentry, haddr⟩ :=
    walk_of_leaf hrep (fun _ _ => BitVec.getLsbD_zero) hroom hleaf hlow
      (indicesFrom_indices virtAddr) (by omega) (table_virtualPage placement virtAddr)
  rw [tableAddr_zero] at hlength hentries hentry
  refine ⟨hlength, ?_, by rw [hentry, Option.map_some, haddr]⟩
  intro entry hmem
  obtain ⟨level, index, address, rfl⟩ := hentries entry hmem
  exact flags_pointTo_cleared level index address

theorem unmapped_of_leaf {root : ℕ → Word64} (hrep : Represents man root placement leaf s)
    (hroot : NonePresent root) (hroom : Room man placement.count)
    (hleaf : leaf (virtualPage virtAddr) = none) : Unmapped s.memory man.dirAddr virtAddr := by
  have hunmapped := walk_of_none hrep hroot hroom hleaf (indicesFrom_indices virtAddr)
    (by omega) (table_virtualPage placement virtAddr)
  rwa [tableAddr_zero] at hunmapped

theorem Translates.unique {memory : Memory} {dirAddr frame' : Word64}
    (htranslates : Translates memory dirAddr virtAddr frame)
    (htranslates' : Translates memory dirAddr virtAddr frame') : frame = frame' :=
  Option.some.inj (htranslates.leaf.symm.trans htranslates'.leaf)

/-- Translation correctness of `map`.  From a cleared root, while every table handed
out lies inside the directory region and nothing else is written there, a run of calls
maps each page to the frame of the last call for it, and no other page. -/
theorem map_translates (haligned : man.dirAddr.toNat % 4096 = 0)
    (hcleared : ∀ index < 512, cells man s.memory index = 0) (hPDI : s.PDI = 0)
    (hinside : ∀ past, past <+: calls →
      ∀ k ≤ (mapAll console man s past).PDI.toNat, Inside man k)
    (hframes : ∀ call ∈ calls, call.2.toNat < 2 ^ 40)
    (hapart : Disjoint (region man) console.touched) (virtAddr : Word64) :
    (∀ before call after, calls = before ++ call :: after →
      virtualPage call.1 = virtualPage virtAddr →
      (∀ later ∈ after, virtualPage later.1 ≠ virtualPage virtAddr) →
        Translates (mapAll console man s calls).memory man.dirAddr virtAddr
          (pageAlign call.2)) ∧
    ((∀ call ∈ calls, virtualPage call.1 ≠ virtualPage virtAddr) →
      Unmapped (mapAll console man s calls).memory man.dirAddr virtAddr) := by
  let root : ℕ → Word64 := fun _ => 0
  have hroot : NonePresent root := fun _ _ => BitVec.getLsbD_zero
  have hinit : Represents man root (Placement.initial 512) (fun _ => none) s :=
    represents_initial hPDI hcleared
  have hroom := room_placed hinit hroot hapart fun past hpast =>
    room_of_inside haligned (hinside past hpast)
  have hrep := mapAll_represents hinit hroot hapart hroom
  constructor
  · rintro before call after rfl hpage hlast
    have hleaf : lastFrame (before ++ call :: after) (virtualPage virtAddr) = some call.2 := by
      rw [← hpage]
      exact lastFrame_of_last fun later hlater => hpage ▸ hlast later hlater
    exact translates_of_leaf hrep hroom hleaf (hframes call (by simp))
  · intro hnever
    exact unmapped_of_leaf hrep hroot hroom (lastFrame_of_never hnever)

/-- A run for whose tables there is room hands out tables inside the region. -/
theorem inside_of_room (hinit : Represents man (fun _ => 0) (Placement.initial 512)
      (fun _ => none) s)
    (hapart : Disjoint (region man) console.touched) (hroom : Room man (placed calls).count)
    {past : List Call} (hpast : past <+: calls) {k : ℕ}
    (hk : k ≤ (mapAll console man s past).PDI.toNat) : Inside man k := by
  obtain ⟨more, rfl⟩ := hpast
  have hle := count_placed_le_append past more
  have hrep := mapAll_represents hinit (fun _ _ => BitVec.getLsbD_zero) hapart (hroom.mono hle)
  rw [hrep.count_eq] at hk
  exact Room.inside_table hroom (hk.trans hle)

end Run

/-- Two pages that share their upper tables, and the first of them mapped twice. -/
theorem map_translates_remapped :
    let man : PTableMan := ⟨0x100000, 0x10000⟩
    let calls : List Call := [(0x7000, 0x4000), (0x8000, 0x5000), (0x7abc, 0x6def)]
    let final := mapAll headless man (unmapped fun _ => 0) calls
    Translates final.memory man.dirAddr 0x7123 0x6000 := by
  intro man calls final
  have hcleared : ∀ index < 512, cells man (unmapped fun _ => 0).memory index = 0 :=
    fun index _ => cells_unmapped man index
  have hinit := represents_initial (s := unmapped fun _ => 0) rfl hcleared
  have hapart : Disjoint (region man) headless.touched := disjoint_headless (by decide)
  have hroom : Room man (placed calls).count := by
    have hcount : (placed calls).count = 3 := by decide +kernel
    rw [hcount]
    exact ⟨by decide, by decide, by decide, by decide, by decide⟩
  have hframes : ∀ call ∈ calls, call.2.toNat < 2 ^ 40 := by simp [calls]
  exact (map_translates (by decide) hcleared rfl
    (fun past hpast k hk => inside_of_room hinit hapart hroom hpast hk) hframes hapart
    0x7123).1 [(0x7000, 0x4000), (0x8000, 0x5000)] (0x7abc, 0x6def) [] rfl (by decide) (by simp)

end RedX.Translation
