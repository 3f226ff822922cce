import RedX.Core.AccessLog
import RedX.Core.CountedLoop
import RedX.Screen.TextRenderer

/-!
# `class Terminal`

The text terminal of `terminal/terminal.cpp` with `print` of `libs/io.cpp`.  Its
four buffers are arrays that an `int` index can leave on both sides, so a cell is
named by an integer, and every access of the handler is logged.  The scans for the
terminating zero have no bound of their own; a scan that finds none never returns.
-/

namespace RedX.TextTerminal

open RedX.MachineWord
open RedX.CountedLoop
open RedX.TextRenderer
open RedX.AccessLog

inductive Buffer where
  | textBuffer
  | commandBuffer
  | inBuffer
  | outBuffer
  deriving DecidableEq

abbrev Access := Buffer × ℤ

/-- The object `terminal`, the globals `ii` and `io` of its file and the flag that it
shares with the scheduler. -/
structure Terminal where
  bufferSize : Word64
  width : Word64
  height : Word64
  cells : Buffer → ℤ → Byte
  ii : Word32
  io : Word32
  work : Bool
  schedulerWork : Bool

/-- `for (uint64_t i = 0; i < count; i++) cells[i] = 0` -/
def clear (count : Word64) (cells : ℤ → Byte) : ℤ → Byte :=
  forLoop count.toNat (fun i cells => Function.update cells i 0) cells

/-- `Terminal::init`, where `pool` is what the four pools hold before. -/
def Terminal.init (frameBuffer : Framebuffer) (pool : Buffer → ℤ → Byte) : Terminal :=
  let width : Word64 := (frameBuffer.width / 8 - 1).setWidth 64
  let height : Word64 := (frameBuffer.height / 16 - 1).setWidth 64
  let bufferSize := width * height
  { bufferSize := bufferSize
    width := width
    height := height
    cells := fun buffer => clear (bufferSize - 1) (pool buffer)
    ii := 0
    io := 0
    work := false
    schedulerWork := false }

theorem clear_eq_zero {count : Word64} {cells : ℤ → Byte} {position : ℕ}
    (hposition : position < count.toNat) : clear count cells position = 0 := by
  refine forLoop_invariant
    (fun index (cleared : ℤ → Byte) => ∀ position : ℕ, position < index → cleared position = 0)
    (fun _ hnone => absurd hnone (Nat.not_lt_zero _)) ?_ position hposition
  intro index _ current hcleared position hposition
  by_cases hlast : position = index
  · rw [hlast, Function.update_self]
  · rw [Function.update_of_ne (by omega)]
    exact hcleared position (by omega)

theorem clear_of_le {count : Word64} {cells : ℤ → Byte} {position : ℕ}
    (hposition : count.toNat ≤ position) : clear count cells position = cells position := by
  refine forLoop_invariant (fun _ (cleared : ℤ → Byte) => cleared position = cells position) rfl ?_
  intro index hindex current hsame
  rw [Function.update_of_ne (by omega)]
  exact hsame

/-- `init` clears every cell but the last. -/
theorem init_cells_eq_zero (frameBuffer : Framebuffer) (pool : Buffer → ℤ → Byte)
    (buffer : Buffer) {position : ℕ}
    (hposition : position + 1 < (Terminal.init frameBuffer pool).bufferSize.toNat) :
    (Terminal.init frameBuffer pool).cells buffer position = 0 := by
  apply clear_eq_zero
  change position < ((Terminal.init frameBuffer pool).bufferSize - 1).toNat
  rw [BitVec.toNat_sub, show (1 : Word64).toNat = 1 from rfl]
  omega

/-- From the last cell on the buffers are as the pools were. -/
theorem init_cells_of_le (frameBuffer : Framebuffer) (pool : Buffer → ℤ → Byte) (buffer : Buffer)
    {position : ℕ} (hpos : 0 < (Terminal.init frameBuffer pool).bufferSize.toNat)
    (hposition : (Terminal.init frameBuffer pool).bufferSize.toNat ≤ position + 1) :
    (Terminal.init frameBuffer pool).cells buffer position = pool buffer position := by
  apply clear_of_le
  change ((Terminal.init frameBuffer pool).bufferSize - 1).toNat ≤ position
  rw [BitVec.toNat_sub, show (1 : Word64).toNat = 1 from rfl]
  omega

/-- Width and height are 32-bit numbers, so their product does not wrap. -/
theorem toNat_bufferSize_init (frameBuffer : Framebuffer) (pool : Buffer → ℤ → Byte) :
    let t := Terminal.init frameBuffer pool
    t.bufferSize.toNat = t.width.toNat * t.height.toNat ∧
      t.bufferSize.toNat ≤ (2 ^ 32 - 1) * (2 ^ 32 - 1) := by
  intro t
  have hwidth : t.width.toNat ≤ 2 ^ 32 - 1 := by
    change ((frameBuffer.width / 8 - 1).setWidth 64).toNat ≤ _
    rw [BitVec.toNat_setWidth]
    omega
  have hheight : t.height.toNat ≤ 2 ^ 32 - 1 := by
    change ((frameBuffer.height / 16 - 1).setWidth 64).toNat ≤ _
    rw [BitVec.toNat_setWidth]
    omega
  have hproduct : t.width.toNat * t.height.toNat ≤ (2 ^ 32 - 1) * (2 ^ 32 - 1) :=
    Nat.mul_le_mul hwidth hheight
  have hsize : t.bufferSize.toNat = t.width.toNat * t.height.toNat := by
    change (t.width * t.height).toNat = _
    rw [BitVec.toNat_mul]
    omega
  exact ⟨hsize, hsize ▸ hproduct⟩

def lineFeed : Byte := 0x0A

def space : Byte := 0x20

def Terminal.put (t : Terminal) (buffer : Buffer) (index : Word32) (chr : Byte) : Terminal :=
  { t with
    cells := Function.update t.cells buffer (Function.update (t.cells buffer) index.toInt chr) }

@[simp]
theorem put_cells_self (t : Terminal) (buffer : Buffer) (index : Word32) (chr : Byte) :
    (t.put buffer index chr).cells buffer =
      Function.update (t.cells buffer) index.toInt chr :=
  Function.update_self _ _ _

def Terminal.read (t : Terminal) (buffer : Buffer) (index : Word32) : Logged Access Byte :=
  access (buffer, index.toInt) (t.cells buffer index.toInt)

def Terminal.write (t : Terminal) (buffer : Buffer) (index : Word32) (chr : Byte) :
    Logged Access Terminal :=
  access (buffer, index.toInt) (t.put buffer index chr)

/-- `for (i = 0; buffer[i] != NULL && more; i++) {}` -/
def Terminal.search (t : Terminal) (buffer : Buffer) (more : Word32 → Bool) :
    Logged Access Word32 := do
  let stop ← forInt
    (fun i _ => do
      let chr ← t.read buffer i
      return chr != 0 && more i)
    (fun _ _ => pure ()) passes 0 ()
  return stop.1

/-- The scan of `handler`, which has no bound. -/
def Terminal.scan (t : Terminal) (buffer : Buffer) : Logged Access Word32 :=
  t.search buffer fun _ => true

/-- The search of the keyboard and of `print`, bounded by `i < bufferSize`. -/
def Terminal.findFree (t : Terminal) (buffer : Buffer) : Logged Access Word32 :=
  t.search buffer fun i => i.signExtend 64 < t.bufferSize

/-- `dividend % divisor`; a division by zero faults. -/
def modulo (dividend divisor : Word64) : Logged Access Word64 :=
  if divisor = 0 then hang else pure (dividend % divisor)

/-- What `handler` does for a `'\n'`: pad the row with spaces, then end it. -/
def Terminal.newLine (t : Terminal) (ti : Word32) : Logged Access Terminal := do
  let stop ← forInt
    (fun ti t => do
      let chr ← t.read .textBuffer (ti - 1)
      if chr = lineFeed then return false
      else
        let column ← modulo (ti.signExtend 64) t.width
        return column != 0)
    (fun ti t => t.write .textBuffer ti space) passes ti t
  stop.2.write .textBuffer (stop.1 - 1) lineFeed

/-- The bytes of a string literal and its terminating zero, by index. -/
def cString (str : String) (i : Word32) : Byte := (literal str).getD i.toNat 0

/-- `print(char *string)`.  The loop that copies the string goes on while its
characters are zero. -/
def Terminal.print (t : Terminal) (string : Word32 → Byte) : Logged Access Terminal := do
  let o ← t.findFree .outBuffer
  let stop ← forInt (fun i _ => pure (string i == 0))
    (fun i t => t.write .outBuffer (o + i) (string i)) passes 0 t
  return stop.2

/-- `Terminal::runCommand` knows no command. -/
def runCommand (_commandString : ℤ → Byte) : Word32 := 2

/-- `for (int i = 0; i < bufferSize || commandBuffer[i] != NULL; i++) {commandBuffer[i] = NULL;}` -/
def Terminal.clearCommand (t : Terminal) : Logged Access Terminal := do
  let stop ← forInt
    (fun i t => do
      if i.signExtend 64 < t.bufferSize then return true
      else
        let chr ← t.read .commandBuffer i
        return chr != 0)
    (fun i t => t.write .commandBuffer i 0) passes 0 t
  return stop.2

/-- The branch of `handler` for a `'\n'` from the keyboard. -/
def Terminal.enterLine (t : Terminal) (ti : Word32) : Logged Access Terminal := do
  let t ← t.newLine ti
  let t ← (if runCommand (t.cells .commandBuffer) = 2 then
      t.print (cString "Shell: error, no such file or command\n")
    else pure t)
  t.clearCommand

/-- The branch of `handler` for every other character. -/
def Terminal.echo (t : Terminal) (ti ci : Word32) (chr : Byte) : Logged Access Terminal := do
  let t ← t.write .textBuffer ti chr
  t.write .commandBuffer ci chr

/-- The body of `if (in[ii])` -/
def Terminal.takeInput (t : Terminal) (chr : Byte) : Logged Access Terminal := do
  let ti ← t.scan .textBuffer
  let ci ← t.scan .commandBuffer
  let t ← (if chr = lineFeed then t.enterLine ti else t.echo ti ci chr)
  let t ← t.write .inBuffer t.ii 0
  return { t with ii := t.ii + 1, work := true }

/-- The body of `if (out[io])` -/
def Terminal.takeOutput (t : Terminal) (chr : Byte) : Logged Access Terminal := do
  let ti ← t.scan .textBuffer
  let t ← (if chr = lineFeed then t.newLine ti else t.write .textBuffer ti chr)
  let t ← t.write .outBuffer t.io 0
  return { t with io := t.io + 1, work := true }

def Terminal.handleInput (t : Terminal) : Logged Access Terminal := do
  let chr ← t.read .inBuffer t.ii
  if chr = 0 then return { t with ii := 0 } else t.takeInput chr

def Terminal.handleOutput (t : Terminal) : Logged Access Terminal := do
  let chr ← t.read .outBuffer t.io
  if chr = 0 then return { t with io := 0 } else t.takeOutput chr

/-- `Terminal::handler` -/
def Terminal.handler (t : Terminal) : Logged Access Terminal := do
  let t ← ({ t with work := false } : Terminal).handleInput
  let t ← t.handleOutput
  return { t with schedulerWork := t.schedulerWork || t.work }

/-- `in[ii]` -/
def Terminal.nextInput (t : Terminal) : Byte := t.cells .inBuffer t.ii.toInt

/-- `out[io]` -/
def Terminal.nextOutput (t : Terminal) : Byte := t.cells .outBuffer t.io.toInt

variable {t t' t'' : Terminal} {buffer : Buffer} {P : Access → Prop}

theorem handleInput_result : t.handleInput.result =
    if t.nextInput = 0 then some { t with ii := 0 } else (t.takeInput t.nextInput).result := by
  change (if t.nextInput = 0 then _ else _ : Logged Access Terminal).result = _
  split_ifs <;> rfl

theorem handleOutput_result : t.handleOutput.result =
    if t.nextOutput = 0 then some { t with io := 0 } else (t.takeOutput t.nextOutput).result := by
  change (if t.nextOutput = 0 then _ else _ : Logged Access Terminal).result = _
  split_ifs <;> rfl

/-! ## The search for the first zero -/

/-- The number of cells of a buffer that an `int` index can name. -/
def Terminal.reach (t : Terminal) : ℕ := min t.bufferSize.toNat (2 ^ 31)

/-- A buffer with a terminating zero inside. -/
def Terminal.HasRoom (t : Terminal) (buffer : Buffer) : Prop :=
  ∃ position < t.reach, t.cells buffer position = 0

structure Terminal.FirstZero (t : Terminal) (buffer : Buffer) (i : Word32) : Prop where
  inside : i.toNat < t.reach
  zero : t.cells buffer i.toNat = 0
  before : ∀ position < i.toNat, t.cells buffer position ≠ 0

theorem Terminal.FirstZero.hasRoom {i : Word32} (hfirst : t.FirstZero buffer i) :
    t.HasRoom buffer := ⟨i.toNat, hfirst.inside, hfirst.zero⟩

theorem Terminal.FirstZero.unique {i j : Word32} (hi : t.FirstZero buffer i)
    (hj : t.FirstZero buffer j) : i = j := by
  apply BitVec.eq_of_toNat_eq
  rcases lt_trichotomy i.toNat j.toNat with hlt | hsame | hlt
  · exact absurd hi.zero (hj.before _ hlt)
  · exact hsame
  · exact absurd hj.zero (hi.before _ hlt)

theorem toInt_of_lt_reach {i : Word32} (hinside : i.toNat < t.reach) : i.toInt = i.toNat :=
  toInt_of_lt (lt_of_lt_of_le hinside (min_le_right _ _))

theorem toNat_ofNat_of_lt_reach {position : ℕ} (hposition : position < t.reach) :
    (BitVec.ofNat 32 position).toNat = position := by
  have hbound : t.reach ≤ 2 ^ 31 := min_le_right _ _
  rw [BitVec.toNat_ofNat]
  omega

theorem toInt_ofNat_of_lt_reach {position : ℕ} (hposition : position < t.reach) :
    (BitVec.ofNat 32 position).toInt = position := by
  have hvalue := toNat_ofNat_of_lt_reach hposition
  rw [toInt_of_lt_reach (hvalue.symm ▸ hposition), hvalue]

theorem signExtend_lt_of_lt_reach {i : Word32} (hinside : i.toNat < t.reach) :
    i.signExtend 64 < t.bufferSize := by
  rw [BitVec.lt_def, toNat_signExtend_of_lt (lt_of_lt_of_le hinside (min_le_right _ _))]
  exact lt_of_lt_of_le hinside (min_le_left _ _)

/-- The first index that `reach` leaves out: the size of the buffer, or the negative
number that an `int` wraps to. -/
theorem index_reach :
    (BitVec.ofNat 32 t.reach).toNat = t.bufferSize.toNat ∧ t.bufferSize.toNat < 2 ^ 31 ∨
      BitVec.ofNat 32 t.reach = BitVec.ofNat 32 (2 ^ 31) := by
  by_cases hsmall : t.bufferSize.toNat < 2 ^ 31
  · refine .inl ⟨?_, hsmall⟩
    rw [BitVec.toNat_ofNat, show t.reach = t.bufferSize.toNat from min_eq_left hsmall.le]
    omega
  · exact .inr (congrArg _ (min_eq_right (by omega)))

theorem reach_outside :
    ¬ (0 ≤ (BitVec.ofNat 32 t.reach).toInt ∧
      (BitVec.ofNat 32 t.reach).toInt < t.bufferSize.toNat) := by
  rintro ⟨hnonneg, hlt⟩
  rcases index_reach (t := t) with ⟨hvalue, hsmall⟩ | hwrapped
  · rw [toInt_of_lt (hvalue ▸ hsmall), hvalue] at hlt
    omega
  · rw [hwrapped] at hnonneg
    exact absurd hnonneg (show ¬ (0 : ℤ) ≤ (BitVec.ofNat 32 (2 ^ 31)).toInt by decide)

theorem not_lt_reach (hsize : t.bufferSize.toNat ≤ 2 ^ 64 - 2 ^ 31) :
    ¬ (BitVec.ofNat 32 t.reach).signExtend 64 < t.bufferSize := by
  rw [BitVec.lt_def]
  rcases index_reach (t := t) with ⟨hvalue, hsmall⟩ | hwrapped
  · rw [toNat_signExtend_of_lt (hvalue ▸ hsmall), hvalue]
    exact lt_irrefl _
  · rw [hwrapped]
    exact Nat.not_lt.mpr hsize

/-- The state of a search: `i` is inside and no zero comes before it. -/
private structure Searching (t : Terminal) (buffer : Buffer) (i : Word32) : Prop where
  inside : i.toNat < t.reach
  before : ∀ position < i.toNat, t.cells buffer position ≠ 0

private theorem searching_zero (hroom : t.HasRoom buffer) : Searching t buffer 0 where
  inside := by
    obtain ⟨position, hposition, _⟩ := hroom
    exact lt_of_le_of_lt (Nat.zero_le _) hposition
  before _ hposition := absurd hposition (Nat.not_lt_zero _)

private theorem Searching.next {i : Word32} (hsearch : Searching t buffer i)
    (hroom : t.HasRoom buffer) (hchr : t.cells buffer i.toInt ≠ 0) :
    Searching t buffer (i + 1) := by
  obtain ⟨last, hlast, hzero⟩ := hroom
  rw [toInt_of_lt_reach hsearch.inside] at hchr
  have hbound : t.reach ≤ 2 ^ 31 := min_le_right _ _
  have hinside := hsearch.inside
  have hnext : (i + 1).toNat = i.toNat + 1 := by
    rw [BitVec.toNat_add, show (1 : Word32).toNat = 1 from rfl]
    omega
  have hbefore : ∀ position < i.toNat + 1, t.cells buffer position ≠ 0 := by
    intro position hposition
    rcases Nat.lt_succ_iff_lt_or_eq.mp hposition with hearlier | rfl
    · exact hsearch.before position hearlier
    · exact hchr
  constructor
  · rw [hnext]
    by_contra hpast
    exact hbefore last (by omega) hzero
  · rwa [hnext]

private theorem Searching.found {i : Word32} (hsearch : Searching t buffer i)
    (hchr : t.cells buffer i.toInt = 0) : t.FirstZero buffer i :=
  ⟨hsearch.inside, toInt_of_lt_reach hsearch.inside ▸ hchr, hsearch.before⟩

private theorem search_holds {more : Word32 → Bool} (hroom : t.HasRoom buffer)
    (hmore : ∀ i : Word32, i.toNat < t.reach → more i = true)
    (hplace : ∀ position < t.reach, P (buffer, position)) :
    (t.search buffer more).Holds P (t.FirstZero buffer) := by
  unfold Terminal.search
  refine holds_bind (forInt_holds (fun i _ => Searching t buffer i) ?_ (searching_zero hroom))
    fun stop hfirst => holds_pure (Q := t.FirstZero buffer) hfirst
  intro i _ hsearch
  refine holds_bind (holds_access (Q := (· = t.cells buffer i.toInt)) ?_ rfl) fun chr hchr => ?_
  · rw [toInt_of_lt_reach hsearch.inside]
    exact hplace _ hsearch.inside
  · subst hchr
    rw [hmore i hsearch.inside, Bool.and_true]
    apply holds_pure
    split_ifs with hagain
    · exact holds_pure (hsearch.next hroom (bne_iff_ne.mp hagain))
    · exact hsearch.found (by simpa using hagain)

/-- A scan of a buffer with a terminating zero stays inside and ends at the first. -/
theorem scan_holds (hroom : t.HasRoom buffer)
    (hplace : ∀ position < t.reach, P (buffer, position)) :
    (t.scan buffer).Holds P (t.FirstZero buffer) :=
  search_holds hroom (fun _ _ => rfl) hplace

theorem findFree_holds (hroom : t.HasRoom buffer)
    (hplace : ∀ position < t.reach, P (buffer, position)) :
    (t.findFree buffer).Holds P (t.FirstZero buffer) :=
  search_holds hroom (fun _ hinside => decide_eq_true (signExtend_lt_of_lt_reach hinside)) hplace

/-- A search in a buffer without a zero reads the first cell that `reach` leaves out. -/
private theorem search_reaches {more : Word32 → Bool} (hfull : ¬ t.HasRoom buffer)
    (hmore : ∀ i : Word32, i.toNat < t.reach → more i = true)
    (hall : (t.search buffer more).All P) : P (buffer, (BitVec.ofNat 32 t.reach).toInt) := by
  have hheld : ∀ position < t.reach, t.cells buffer position ≠ 0 :=
    fun position hposition hzero => hfull ⟨position, hposition, hzero⟩
  have hbound : t.reach ≤ 2 ^ 31 := min_le_right _ _
  rw [Terminal.search, all_bind] at hall
  obtain ⟨_, _, hlast⟩ := forInt_reaches (fun _ => True) trivial (fun done hdone _ _ => by
    have hchr := hheld done hdone
    have hagain := hmore (BitVec.ofNat 32 done) ((toNat_ofNat_of_lt_reach hdone).symm ▸ hdone)
    rw [← toInt_ofNat_of_lt_reach hdone] at hchr
    rw [counter_zero]
    exact ⟨by simpa [Terminal.read, access, hagain] using hchr, (), rfl, trivial⟩)
    (show t.reach < passes by unfold passes; omega) hall.1
  rw [counter_zero, all_bind] at hlast
  exact (all_access _ _).mp hlast.1

theorem scan_reaches (hfull : ¬ t.HasRoom buffer) (hall : (t.scan buffer).All P) :
    P (buffer, (BitVec.ofNat 32 t.reach).toInt) :=
  search_reaches hfull (fun _ _ => rfl) hall

theorem findFree_reaches (hfull : ¬ t.HasRoom buffer) (hall : (t.findFree buffer).All P) :
    P (buffer, (BitVec.ofNat 32 t.reach).toInt) :=
  search_reaches hfull (fun _ hinside => decide_eq_true (signExtend_lt_of_lt_reach hinside)) hall

/-- The loop that clears the command buffer reads that cell too. -/
theorem clearCommand_reaches (hsize : t.bufferSize.toNat ≤ 2 ^ 64 - 2 ^ 31)
    (hall : t.clearCommand.All P) : P (.commandBuffer, (BitVec.ofNat 32 t.reach).toInt) := by
  have hbound : t.reach ≤ 2 ^ 31 := min_le_right _ _
  rw [Terminal.clearCommand, all_bind] at hall
  obtain ⟨current, hsame, hlast⟩ := forInt_reaches
    (fun current => current.bufferSize = t.bufferSize) rfl (fun done hdone current hsame => by
      have hmore := signExtend_lt_of_lt_reach ((toNat_ofNat_of_lt_reach hdone).symm ▸ hdone)
      rw [counter_zero, hsame, if_pos hmore]
      exact ⟨rfl, current.put .commandBuffer (BitVec.ofNat 32 done) 0, rfl, hsame⟩)
    (show t.reach < passes by unfold passes; omega) hall.1
  rw [counter_zero, hsame, if_neg (not_lt_reach hsize), all_bind] at hlast
  exact (all_access _ _).mp hlast.1

/-! ## Loops that return -/

private theorem search_returns {more : Word32 → Bool} {count : ℕ} (hcount : count < passes)
    (hstop : t.cells buffer (BitVec.ofNat 32 count).toInt = 0 ∨
      more (BitVec.ofNat 32 count) = false) :
    (t.search buffer more).Returns := by
  unfold Terminal.search
  refine returns_bind (forInt_returns (fun _ => True) trivial
    (fun _ _ _ => returns_bind (returns_access _ _) fun _ _ => returns_pure _)
    (fun _ _ _ => ⟨(), rfl, trivial⟩) hcount fun _ _ => ?_) fun stop _ => returns_pure stop.1
  rw [counter_zero]
  rcases hstop with hzero | hmore
  · simp [Terminal.read, access, hzero]
  · simp [Terminal.read, access, hmore]

private theorem search_finds {more : Word32 → Bool} (hroom : t.HasRoom buffer)
    (hmore : ∀ i : Word32, i.toNat < t.reach → more i = true) :
    ∃ i, (t.search buffer more).result = some i ∧ t.FirstZero buffer i := by
  obtain ⟨position, hposition, hzero⟩ := id hroom
  have hbound : t.reach ≤ 2 ^ 31 := min_le_right _ _
  have hstop : t.cells buffer (BitVec.ofNat 32 position).toInt = 0 := by
    rw [toInt_ofNat_of_lt_reach hposition]
    exact hzero
  have hreturns : (t.search buffer more).Returns :=
    search_returns (show position < passes by unfold passes; omega) (.inl hstop)
  obtain ⟨i, hi⟩ := hreturns
  exact ⟨i, hi, (search_holds (P := fun _ => True) hroom hmore fun _ _ => trivial).2 i hi⟩

/-- A scan of a buffer with a terminating zero ends at the first zero. -/
theorem scan_finds (hroom : t.HasRoom buffer) :
    ∃ i, (t.scan buffer).result = some i ∧ t.FirstZero buffer i :=
  search_finds hroom fun _ _ => rfl

theorem findFree_finds (hroom : t.HasRoom buffer) :
    ∃ i, (t.findFree buffer).result = some i ∧ t.FirstZero buffer i :=
  search_finds hroom fun _ hinside => decide_eq_true (signExtend_lt_of_lt_reach hinside)

/-- The bounded search returns also in a buffer without a zero: the counter wraps to a
negative number, which no buffer of `init` is large enough for. -/
theorem findFree_returns (hsize : t.bufferSize.toNat ≤ 2 ^ 64 - 2 ^ 31) :
    (t.findFree buffer).Returns := by
  refine search_returns (show 2 ^ 31 < passes by unfold passes; omega) (.inr ?_)
  rw [decide_eq_false_iff_not, BitVec.lt_def, Nat.not_lt]
  exact hsize

theorem print_returns (hsize : t.bufferSize.toNat ≤ 2 ^ 64 - 2 ^ 31) {string : Word32 → Byte}
    (hfirst : string 0 ≠ 0) : (t.print string).Returns := by
  refine returns_bind (findFree_returns hsize) fun o _ => returns_bind
    (forInt_returns (fun _ => True) trivial (fun i _ _ => returns_pure _) ?_
      (show 0 < passes by unfold passes; omega) ?_) fun stop _ => returns_pure stop.2
  · intro i current _
    exact ⟨current.put .outBuffer (o + i) (string i), rfl, trivial⟩
  · intro current _
    rw [counter_zero, show BitVec.ofNat 32 0 = 0 from rfl, beq_eq_false_iff_ne.mpr hfirst]
    rfl

/-- The padding stops at the latest where the counter has wrapped to 0. -/
theorem newLine_returns (hwidth : t.width ≠ 0) (ti : Word32) : (t.newLine ti).Returns := by
  have hwrap : ti + BitVec.ofNat 32 (2 ^ 32 - ti.toNat) = 0 := by
    apply BitVec.eq_of_toNat_eq
    have hlt := ti.isLt
    rw [BitVec.toNat_add, BitVec.toNat_ofNat, show (0 : Word32).toNat = 0 from rfl]
    omega
  unfold Terminal.newLine
  refine returns_bind (forInt_returns (fun current => current.width = t.width) rfl ?_ ?_
    (show 2 ^ 32 - ti.toNat < passes by unfold passes; omega) ?_) fun stop _ => returns_access _ _
  · intro i current hsame
    refine returns_bind (returns_access _ _) fun chr _ => ?_
    split_ifs
    · exact returns_pure false
    · rw [modulo, hsame, if_neg hwidth]
      exact returns_bind (returns_pure _) fun _ _ => returns_pure _
  · intro i current hsame
    exact ⟨current.put .textBuffer i space, rfl, hsame⟩
  · intro current hsame
    rw [hwrap, result_bind]
    simp only [Terminal.read, access, Option.bind_some]
    split_ifs
    · rfl
    · rw [modulo, hsame, if_neg hwidth, result_bind, result_pure]
      simp

/-! ## What a step of the terminal leaves alone -/

/-- `t'` differs from `t` at most in the cells of `buffers` and the work flags. -/
structure Kept (buffers : List Buffer) (t t' : Terminal) : Prop where
  bufferSize : t'.bufferSize = t.bufferSize
  width : t'.width = t.width
  ii : t'.ii = t.ii
  io : t'.io = t.io
  cells : ∀ buffer ∉ buffers, t'.cells buffer = t.cells buffer

variable {buffers buffers' : List Buffer}

theorem Kept.refl (t : Terminal) : Kept buffers t t := ⟨rfl, rfl, rfl, rfl, fun _ _ => rfl⟩

theorem Kept.trans (hfirst : Kept buffers t t') (hsecond : Kept buffers t' t'') :
    Kept buffers t t'' :=
  ⟨hsecond.bufferSize.trans hfirst.bufferSize, hsecond.width.trans hfirst.width,
    hsecond.ii.trans hfirst.ii, hsecond.io.trans hfirst.io,
    fun buffer hbuffer => (hsecond.cells buffer hbuffer).trans (hfirst.cells buffer hbuffer)⟩

theorem Kept.mono (hkept : Kept buffers t t') (hsub : buffers ⊆ buffers') :
    Kept buffers' t t' :=
  ⟨hkept.bufferSize, hkept.width, hkept.ii, hkept.io,
    fun buffer hbuffer => hkept.cells buffer fun hmem => hbuffer (hsub hmem)⟩

theorem kept_put (i : Word32) (chr : Byte) (hbuffer : buffer ∈ buffers) :
    Kept buffers t (t.put buffer i chr) :=
  ⟨rfl, rfl, rfl, rfl, fun _ hother =>
    Function.update_of_ne (ne_of_mem_of_not_mem hbuffer hother).symm _ _⟩

/-- No condition on the accesses. -/
def anywhere (_ : Access) : Prop := True

theorem read_kept (i : Word32) :
    (t.read buffer i).Holds anywhere (· = t.cells buffer i.toInt) := holds_access trivial rfl

theorem write_kept (i : Word32) (chr : Byte) (hbuffer : buffer ∈ buffers) :
    (t.write buffer i chr).Holds anywhere (Kept buffers t) :=
  holds_access trivial (kept_put i chr hbuffer)

theorem holds_anywhere {α : Type} (computation : Logged Access α) :
    computation.Holds anywhere fun _ => True := ⟨fun _ _ => trivial, fun _ _ => trivial⟩

theorem newLine_kept (t : Terminal) (ti : Word32) (hbuffer : .textBuffer ∈ buffers) :
    (t.newLine ti).Holds anywhere (Kept buffers t) := by
  unfold Terminal.newLine
  refine holds_bind (forInt_holds (Q := fun stop => Kept buffers t stop.2)
    (fun _ => Kept buffers t) ?_ (Kept.refl t)) ?_
  · intro ti' current hkept
    refine (holds_anywhere _).mono fun again _ => ?_
    split_ifs
    · exact (write_kept ti' space hbuffer).mono fun _ => hkept.trans
    · exact hkept
  · intro stop hkept
    exact (write_kept _ lineFeed hbuffer).mono fun _ => hkept.trans

theorem clearCommand_kept (t : Terminal) (hbuffer : .commandBuffer ∈ buffers) :
    t.clearCommand.Holds anywhere (Kept buffers t) := by
  unfold Terminal.clearCommand
  refine holds_bind (forInt_holds (Q := fun stop => Kept buffers t stop.2)
    (fun _ => Kept buffers t) ?_ (Kept.refl t)) fun stop hkept => holds_pure hkept
  intro i current hkept
  refine (holds_anywhere _).mono fun again _ => ?_
  split_ifs
  · exact (write_kept i 0 hbuffer).mono fun _ => hkept.trans
  · exact hkept

/-- The copy loop of `print` runs while the string's characters are zero, so a string
that is not empty leaves the terminal as it is. -/
theorem print_holds {string : Word32 → Byte} (hfirst : string 0 ≠ 0)
    (hfree : (t.findFree .outBuffer).All P) : (t.print string).Holds P (· = t) := by
  unfold Terminal.print
  refine holds_bind (Q := fun _ => True) ⟨hfree, fun _ _ => trivial⟩ fun o _ => ?_
  refine holds_bind (forInt_holds (Q := fun stop => stop.2 = t)
    (fun i current => i = 0 ∧ current = t) ?_ ⟨rfl, rfl⟩) fun stop hsame => holds_pure hsame
  rintro i current ⟨rfl, rfl⟩
  apply holds_pure
  rw [beq_eq_false_iff_ne.mpr hfirst]
  rfl

theorem print_eq (t : Terminal) {string : Word32 → Byte} (hfirst : string 0 ≠ 0) :
    (t.print string).Holds anywhere (· = t) :=
  print_holds hfirst fun _ _ => trivial

theorem enterLine_kept (t : Terminal) (ti : Word32) (htext : .textBuffer ∈ buffers)
    (hcommand : .commandBuffer ∈ buffers) :
    (t.enterLine ti).Holds anywhere (Kept buffers t) := by
  unfold Terminal.enterLine
  refine holds_bind (newLine_kept t ti htext) fun padded hpadded => ?_
  rw [runCommand, if_pos rfl]
  refine holds_bind (print_eq padded (by decide)) fun printed hprinted => ?_
  subst hprinted
  exact (clearCommand_kept printed hcommand).mono fun _ => hpadded.trans

theorem echo_kept (t : Terminal) (ti ci : Word32) (chr : Byte) (htext : .textBuffer ∈ buffers)
    (hcommand : .commandBuffer ∈ buffers) :
    (t.echo ti ci chr).Holds anywhere (Kept buffers t) :=
  holds_bind (write_kept ti chr htext) fun _ hechoed =>
    (write_kept ci chr hcommand).mono fun _ => hechoed.trans

/-! ## What a step of the handler does to the two queues -/

/-- One character taken from the cell at `index`, or a rewind at a free cell: the cells
and the index after it. -/
def drain (cells : ℤ → Byte) (index : Word32) : (ℤ → Byte) × Word32 :=
  if cells index.toInt = 0 then (cells, 0) else (Function.update cells index.toInt 0, index + 1)

/-- What one half of `handler` does to the queue `buffer` with its index. -/
structure Drained (buffer : Buffer) (t t' : Terminal) (index index' : Word32) : Prop where
  bufferSize : t'.bufferSize = t.bufferSize
  width : t'.width = t.width
  queue : (t'.cells buffer, index') = drain (t.cells buffer) index

theorem handleInput_holds (t : Terminal) : t.handleInput.Holds anywhere fun t' =>
    Drained .inBuffer t t' t.ii t'.ii ∧ t'.cells .outBuffer = t.cells .outBuffer ∧
      t'.io = t.io := by
  unfold Terminal.handleInput
  refine holds_bind (Q := (· = t.nextInput)) (read_kept t.ii) fun chr hchr => ?_
  subst hchr
  by_cases hzero : t.nextInput = 0
  · rw [if_pos hzero]
    exact holds_pure ⟨⟨rfl, rfl, (if_pos hzero).symm⟩, rfl, rfl⟩
  rw [if_neg hzero, Terminal.takeInput]
  refine holds_bind (holds_anywhere _) fun ti _ => ?_
  refine holds_bind (holds_anywhere _) fun ci _ => ?_
  refine holds_bind (Q := Kept [.textBuffer, .commandBuffer] t) ?_ fun current hkept => ?_
  · by_cases hlast : t.nextInput = lineFeed
    · rw [if_pos hlast]
      exact enterLine_kept t ti (by decide) (by decide)
    · rw [if_neg hlast]
      exact echo_kept t ti ci _ (by decide) (by decide)
  refine holds_bind (holds_access (Q := (· = current.put .inBuffer current.ii 0)) trivial rfl)
    fun taken htaken => holds_pure ?_
  subst htaken
  refine ⟨⟨hkept.bufferSize, hkept.width, ?_⟩, hkept.cells .outBuffer (by decide), hkept.io⟩
  rw [show drain _ _ = _ from if_neg hzero, ← hkept.cells .inBuffer (by decide), ← hkept.ii,
    ← put_cells_self]
  rfl

theorem nextOutput_handleInput (hresult : t.handleInput.result = some t') :
    t'.nextOutput = t.nextOutput := by
  obtain ⟨_, hcells, hio⟩ := (handleInput_holds t).2 t' hresult
  rw [Terminal.nextOutput, hcells, hio]
  rfl

theorem handleOutput_holds (t : Terminal) : t.handleOutput.Holds anywhere fun t' =>
    Drained .outBuffer t t' t.io t'.io ∧ t'.cells .inBuffer = t.cells .inBuffer ∧
      t'.ii = t.ii := by
  unfold Terminal.handleOutput
  refine holds_bind (Q := (· = t.nextOutput)) (read_kept t.io) fun chr hchr => ?_
  subst hchr
  by_cases hzero : t.nextOutput = 0
  · rw [if_pos hzero]
    exact holds_pure ⟨⟨rfl, rfl, (if_pos hzero).symm⟩, rfl, rfl⟩
  rw [if_neg hzero, Terminal.takeOutput]
  refine holds_bind (holds_anywhere _) fun ti _ => ?_
  refine holds_bind (Q := Kept [.textBuffer] t) ?_ fun current hkept => ?_
  · by_cases hlast : t.nextOutput = lineFeed
    · rw [if_pos hlast]
      exact newLine_kept t ti (by decide)
    · rw [if_neg hlast]
      exact write_kept ti _ (by decide)
  refine holds_bind (holds_access (Q := (· = current.put .outBuffer current.io 0)) trivial rfl)
    fun taken htaken => holds_pure ?_
  subst htaken
  refine ⟨⟨hkept.bufferSize, hkept.width, ?_⟩, hkept.cells .inBuffer (by decide), hkept.ii⟩
  rw [show drain _ _ = _ from if_neg hzero, ← hkept.cells .outBuffer (by decide), ← hkept.io,
    ← put_cells_self]
  rfl

/-- A step of `handler` takes at most one character from each of its two queues and
leaves every other cell of the two as it is. -/
theorem handler_drains {t t' : Terminal} (hhandler : t.handler.result = some t') :
    Drained .inBuffer t t' t.ii t'.ii ∧ Drained .outBuffer t t' t.io t'.io := by
  have hholds : t.handler.Holds anywhere fun t' =>
      Drained .inBuffer t t' t.ii t'.ii ∧ Drained .outBuffer t t' t.io t'.io := by
    unfold Terminal.handler
    refine holds_bind (handleInput_holds _) fun middle hmiddle => ?_
    obtain ⟨hin, hout, hio⟩ := hmiddle
    refine holds_bind (handleOutput_holds middle) fun last hlast => holds_pure ?_
    obtain ⟨hout', hin', hii'⟩ := hlast
    refine ⟨⟨hout'.bufferSize.trans hin.bufferSize, hout'.width.trans hin.width, ?_⟩,
      ⟨hout'.bufferSize.trans hin.bufferSize, hout'.width.trans hin.width, ?_⟩⟩
    · exact (congrArg₂ Prod.mk hin' hii').trans hin.queue
    · rw [hout'.queue, hout, hio]
  exact hholds.2 t' hhandler

end RedX.TextTerminal
