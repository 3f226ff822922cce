import RedX.Terminal.InputQueue

/-!
# The pages of the four buffers

`init` gets each buffer from `getPool`, which maps one page more than fills the size and
leaves a page between two pools unmapped.  A buffer is walked from a cell inside, one cell at
a time, so the first access that leaves its pool is a page fault, and the kernel panics.
-/

namespace RedX.PoolPages

open RedX.MachineWord
open RedX.AccessLog
open RedX.TextTerminal
open RedX.KeyboardInput
open RedX.InputQueue

/-- The bytes that `getPool` maps for a size. -/
def poolBytes (size : Word64) : ℕ :=
  let pages : Word32 := (size / 0x1000 + 1).setWidth 32
  4096 * pages.toNat

/-- An access that does not fault. -/
def InPool (size : Word64) (place : Access) : Prop := 0 ≤ place.2 ∧ place.2 < poolBytes size

instance (size : Word64) (place : Access) : Decidable (InPool size place) :=
  inferInstanceAs (Decidable (_ ∧ _))

/-- The interrupt or the call of `handler` accesses mapped pages only. -/
def Mapped (beyond : Byte) (m : Machine) : Event → Prop
  | .key scancode => (m.handleKeyboard beyond scancode).All (InPool m.terminal.bufferSize)
  | .handler => m.terminal.handler.All (InPool m.terminal.bufferSize)

instance (beyond : Byte) (m : Machine) : ∀ event, Decidable (Mapped beyond m event)
  | .key _ => inferInstanceAs (Decidable (Logged.All _ _))
  | .handler => inferInstanceAs (Decidable (Logged.All _ _))

/-- A step of the machine with paging on; after a page fault there is none. -/
def pagedStep (beyond : Byte) (h : History) (event : Event) : Option History :=
  if Mapped beyond h.machine event then h.step beyond event else none

variable {beyond : Byte} {h h' : History} {event : Event} {size : Word64}

theorem pagedStep_eq_some_iff : pagedStep beyond h event = some h' ↔
    Mapped beyond h.machine event ∧ h.step beyond event = some h' := by
  rw [pagedStep]
  split_ifs with hmapped
  · exact (and_iff_right hmapped).symm
  · exact iff_of_false nofun fun hstep => hmapped hstep.1

theorem step_of_paged (hstep : pagedStep beyond h event = some h') :
    h.step beyond event = some h' := (pagedStep_eq_some_iff.mp hstep).2

/-- The pool has a byte behind a buffer of this size, and an `int` names all its bytes. -/
theorem poolBytes_bounds (hsmall : size.toNat < 2 ^ 31) :
    size.toNat < poolBytes size ∧ poolBytes size ≤ 2 ^ 31 := by
  have hdiv : (size / 0x1000).toNat = size.toNat / 4096 := BitVec.toNat_udiv
  have hpages : ((size / 0x1000 + 1).setWidth 32 : Word32).toNat = size.toNat / 4096 + 1 := by
    rw [BitVec.toNat_setWidth, BitVec.toNat_add, hdiv, show (1 : Word64).toNat = 1 from rfl]
    omega
  rw [poolBytes, hpages]
  omega

theorem inPool_of_lt {buffer : Buffer} {i : Word32} (hsmall : size.toNat < 2 ^ 31)
    (hinside : i.toNat < poolBytes size) : InPool size (buffer, i.toInt) := by
  have hbound := (poolBytes_bounds hsmall).2
  rw [toInt_of_lt (by omega)]
  exact ⟨Int.natCast_nonneg _, Int.ofNat_lt.mpr hinside⟩

theorem inPool_of_lt_reach {t : Terminal} {buffer : Buffer} {position : ℕ}
    (hsmall : t.bufferSize.toNat < 2 ^ 31) (hposition : position < t.reach) :
    InPool t.bufferSize (buffer, position) := by
  have hlast := (poolBytes_bounds hsmall).1
  have hle : t.reach ≤ t.bufferSize.toNat := min_le_left _ _
  exact ⟨Int.natCast_nonneg _, Int.ofNat_lt.mpr (by omega)⟩

end RedX.PoolPages
