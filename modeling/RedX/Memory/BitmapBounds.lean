import RedX.Core.AccessLog
import RedX.Memory.PagePass

/-!
# Bounds of the page bitmap

`operator[]` and `set` with the indices of `buffer` that they access, and the
operations of the allocator on top of them.  Both accessors let the index
`size * 8` through, whose byte is `buffer[size]`; for every other index they are
right.
-/

namespace RedX.BitmapBounds

open RedX.MachineWord
open RedX.ByteMemory
open RedX.AccessLog
open RedX.PageBitmap
open RedX.PageAllocation
open RedX.PagePass

/-- `buffer[k]` as a value. -/
def Bitmap.load (bitmap : Bitmap) (memory : Memory) (k : Word64) : Logged Word64 Byte :=
  access k (memory (bitmap.buffer + k))

/-- `buffer[k] = byte` -/
def Bitmap.store (bitmap : Bitmap) (memory : Memory) (k : Word64) (byte : Byte) :
    Logged Word64 Memory :=
  access k (store8 memory (bitmap.buffer + k) byte)

/-- `bitmap::operator[]` -/
def Bitmap.getLogged (bitmap : Bitmap) (memory : Memory) (index : Word64) : Logged Word64 Bool :=
  if index > bitmap.size * 8 then pure false
  else do
    let byteIndex := index / 8
    let bitIndex := index % 8
    let bitIndexer : Byte := 0b10000000#8 >>> bitIndex.toNat
    let byte ← Bitmap.load bitmap memory byteIndex
    pure (if byte &&& bitIndexer > 0 then true else false)

/-- `bitmap::set` -/
def Bitmap.setLogged (bitmap : Bitmap) (memory : Memory) (index : Word64) (value : Bool) :
    Logged Word64 (Bool × Memory) :=
  if index > bitmap.size * 8 then pure (false, memory)
  else do
    let byteIndex := index / 8
    let bitIndex := index % 8
    let bitIndexer : Byte := 0b10000000#8 >>> bitIndex.toNat
    let byte ← Bitmap.load bitmap memory byteIndex
    let cleared ← Bitmap.store bitmap memory byteIndex (byte &&& ~~~bitIndexer)
    if value then
      let byte ← Bitmap.load bitmap cleared byteIndex
      let memory ← Bitmap.store bitmap cleared byteIndex (byte ||| bitIndexer)
      pure (true, memory)
    else pure (true, cleared)

/-- `pageAllocator::lock` and `reserve` -/
def markLogged (s : PageAllocator) (counter : Counter) (addr : Word64) :
    Logged Word64 PageAllocator := do
  let index := addr / 4096
  if ← Bitmap.getLogged s.pageBitmap s.memory index then pure s
  else
    let result ← Bitmap.setLogged s.pageBitmap s.memory index true
    let s := { s with memory := result.2 }
    pure (if result.1 then s.charge counter else s)

/-- `pageAllocator::free` and `release` -/
def unmarkLogged (s : PageAllocator) (counter : Counter) (addr : Word64) :
    Logged Word64 PageAllocator := do
  let index := addr / 4096
  if ← Bitmap.getLogged s.pageBitmap s.memory index then
    let result ← Bitmap.setLogged s.pageBitmap s.memory index false
    let s := { s with memory := result.2 }
    pure (if result.1 then
        let s := if s.pageI > index then { s with pageI := index } else s
        s.discharge counter
      else s)
  else pure s

def touchLogged (s : PageAllocator) (sets : Bool) (counter : Counter) (addr : Word64) :
    Logged Word64 PageAllocator :=
  if sets then markLogged s counter addr else unmarkLogged s counter addr

/-- A pass, page by page. -/
def Pass.logged (pass : Pass) (s : PageAllocator) : Logged Word64 PageAllocator :=
  pass.addrs.foldlM (fun s addr => touchLogged s pass.sets pass.counter addr) s

/-- `k` is an index of the buffer. -/
def Inside (bitmap : Bitmap) (k : Word64) : Prop := k.toNat < bitmap.size.toNat

variable {bitmap : Bitmap} {memory : Memory} {index : Word64} {value : Bool}
  {s : PageAllocator} {sets : Bool} {counter : Counter} {addr : Word64}

/-! ## The results -/

theorem getLogged_result (bitmap : Bitmap) (memory : Memory) (index : Word64) :
    (Bitmap.getLogged bitmap memory index).result = some (bitmap.get memory index) := by
  rw [Bitmap.getLogged, Bitmap.get]
  split_ifs <;> rfl

theorem setLogged_result (bitmap : Bitmap) (memory : Memory) (index : Word64) (value : Bool) :
    (Bitmap.setLogged bitmap memory index value).result = some (bitmap.set memory index value) := by
  rw [Bitmap.setLogged, Bitmap.set]
  split_ifs <;> rfl

theorem touchLogged_result (s : PageAllocator) (sets : Bool) (counter : Counter)
    (addr : Word64) :
    (touchLogged s sets counter addr).result = some (touch s sets counter addr) := by
  cases sets with
  | true =>
      change (markLogged s counter addr).result = some (s.mark counter addr)
      rw [markLogged, PageAllocator.mark, result_bind, getLogged_result, Option.bind_some]
      dsimp only
      cases hget : s.pageBitmap.get s.memory (addr / 4096) with
      | true => rfl
      | false =>
          rw [if_neg (by simp), if_neg (by simp), result_bind, setLogged_result, Option.bind_some,
            result_pure]
  | false =>
      change (unmarkLogged s counter addr).result = some (s.unmark counter addr)
      rw [unmarkLogged, PageAllocator.unmark, result_bind, getLogged_result, Option.bind_some]
      dsimp only
      cases hget : s.pageBitmap.get s.memory (addr / 4096) with
      | false => rfl
      | true =>
          rw [if_pos rfl, if_neg (by simp), result_bind, setLogged_result, Option.bind_some,
            result_pure]

theorem logged_result (pass : Pass) (s : PageAllocator) :
    (Pass.logged pass s).result = some (pass.run s) :=
  foldlM_result (fun s addr => touchLogged_result s pass.sets pass.counter addr) s pass.addrs

/-! ## The accesses -/

/-- The one index that passes the comparison and has no byte in the buffer. -/
theorem inside_byteIndex_iff (hlimit : index.toNat ≤ bitmap.limit) :
    Inside bitmap (index / 8) ↔ index.toNat ≠ 8 * bitmap.size.toNat := by
  have hsize := bitmap.size.isLt
  have hwrapped : bitmap.limit = bitmap.size.toNat * 8 % 2 ^ 64 := BitVec.toNat_mul _ _
  rw [hwrapped] at hlimit
  rw [Inside, BitVec.toNat_udiv]
  change index.toNat / 8 < _ ↔ _
  omega

theorem ne_boundary_of_limit_lt (hlimit : bitmap.limit < index.toNat) :
    index.toNat ≠ 8 * bitmap.size.toNat := by
  have hindex := index.isLt
  have hwrapped : bitmap.limit = bitmap.size.toNat * 8 % 2 ^ 64 := BitVec.toNat_mul _ _
  rw [hwrapped] at hlimit
  omega

theorem getLogged_inside_iff (bitmap : Bitmap) (memory : Memory) (index : Word64) :
    (Bitmap.getLogged bitmap memory index).All (Inside bitmap) ↔
      index.toNat ≠ 8 * bitmap.size.toNat := by
  rw [Bitmap.getLogged]
  by_cases hlimit : bitmap.limit < index.toNat
  · rw [if_pos (gt_limit_iff.mpr hlimit)]
    exact iff_of_true (all_pure false) (ne_boundary_of_limit_lt hlimit)
  · rw [if_neg fun hgt => hlimit (gt_limit_iff.mp hgt)]
    simp only [Bitmap.load, all_bind, all_access, all_pure, implies_true, and_true]
    exact inside_byteIndex_iff (by omega)

theorem setLogged_inside_iff (bitmap : Bitmap) (memory : Memory) (index : Word64) (value : Bool) :
    (Bitmap.setLogged bitmap memory index value).All (Inside bitmap) ↔
      index.toNat ≠ 8 * bitmap.size.toNat := by
  rw [Bitmap.setLogged]
  by_cases hlimit : bitmap.limit < index.toNat
  · rw [if_pos (gt_limit_iff.mpr hlimit)]
    exact iff_of_true (all_pure _) (ne_boundary_of_limit_lt hlimit)
  · rw [if_neg fun hgt => hlimit (gt_limit_iff.mp hgt)]
    rw [← inside_byteIndex_iff (not_lt.mp hlimit)]
    cases value <;> simp [Bitmap.load, Bitmap.store]

theorem touchLogged_inside_iff (s : PageAllocator) (sets : Bool) (counter : Counter)
    (addr : Word64) :
    (touchLogged s sets counter addr).All (Inside s.pageBitmap) ↔
      pageIndex addr ≠ 8 * s.pageBitmap.size.toNat := by
  have hget := getLogged_inside_iff s.pageBitmap s.memory (addr / 4096)
  have hset := setLogged_inside_iff s.pageBitmap s.memory (addr / 4096)
  rw [toNat_div_page] at hget hset
  rw [← hget]
  cases sets with
  | true =>
      change (markLogged s counter addr).All _ ↔ _
      rw [markLogged]
      simp only [all_bind]
      refine and_iff_left_of_imp fun hinside again _ => ?_
      cases again with
      | true => exact all_pure s
      | false =>
          rw [if_neg (by simp), all_bind]
          exact ⟨(hset true).mpr (hget.mp hinside), fun result _ => all_pure _⟩
  | false =>
      change (unmarkLogged s counter addr).All _ ↔ _
      rw [unmarkLogged]
      simp only [all_bind]
      refine and_iff_left_of_imp fun hinside again _ => ?_
      cases again with
      | true =>
          rw [if_pos rfl, all_bind]
          exact ⟨(hset false).mpr (hget.mp hinside), fun result _ => all_pure _⟩
      | false => exact all_pure s

theorem logged_inside_iff (pass : Pass) (s : PageAllocator) :
    (Pass.logged pass s).All (Inside s.pageBitmap) ↔
      ∀ addr ∈ pass.addrs, pageIndex addr ≠ 8 * s.pageBitmap.size.toNat := by
  obtain ⟨sets, counter, addrs⟩ := pass
  induction addrs generalizing s with
  | nil => exact iff_of_true (all_pure s) (by simp)
  | cons addr addrs ih =>
      change ((touchLogged s sets counter addr) >>= fun s =>
        Pass.logged ⟨sets, counter, addrs⟩ s).All _ ↔ _
      have hrest := ih (touch s sets counter addr)
      rw [touch_pageBitmap] at hrest
      rw [all_bind, touchLogged_inside_iff, touchLogged_result, List.forall_mem_cons, ← hrest]
      simp only [Option.some.injEq, forall_eq']

/-! ## The operations of the allocator -/

/-- A call of `lock`, `free`, `reserve`, `release` or of a range form. -/
def operate (s : PageAllocator) (call : Call) : Logged Word64 PageAllocator :=
  Pass.logged call.pass s

theorem operate_result (s : PageAllocator) {call : Call}
    (hcall : ∀ found, call ≠ .getPage found) : (operate s call).result = perform s call :=
  (logged_result call.pass s).trans (perform_eq_some_run s hcall).symm

/-- `index` is out of range or has its byte in the buffer, for both accessors. -/
structure Guarded (bitmap : Bitmap) (memory : Memory) (index : Word64) (value : Bool) : Prop where
  get_inside : (Bitmap.getLogged bitmap memory index).All (Inside bitmap)
  set_inside : (Bitmap.setLogged bitmap memory index value).All (Inside bitmap)
  get_outside : 8 * bitmap.size.toNat ≤ index.toNat →
    (Bitmap.getLogged bitmap memory index).result = some false
  set_outside : 8 * bitmap.size.toNat ≤ index.toNat →
    (Bitmap.setLogged bitmap memory index value).result = some (false, memory)

theorem guarded_iff (bitmap : Bitmap) (memory : Memory) (index : Word64) (value : Bool) :
    Guarded bitmap memory index value ↔ index.toNat ≠ 8 * bitmap.size.toNat := by
  constructor
  · intro hguarded
    exact (getLogged_inside_iff bitmap memory index).mp hguarded.get_inside
  · intro hboundary
    have hlimit : 8 * bitmap.size.toNat ≤ index.toNat → bitmap.limit < index.toNat := by
      intro houtside
      have hwrapped : bitmap.limit = bitmap.size.toNat * 8 % 2 ^ 64 := BitVec.toNat_mul _ _
      omega
    refine ⟨(getLogged_inside_iff bitmap memory index).mpr hboundary,
      (setLogged_inside_iff bitmap memory index value).mpr hboundary, fun houtside => ?_,
      fun houtside => ?_⟩
    · rw [getLogged_result, get_of_limit_lt (hlimit houtside)]
    · rw [setLogged_result, set_of_limit_lt (hlimit houtside)]

/-- The bounds are kept for every index but `size * 8`, and so they are by the operations
of the allocator. -/
theorem bitmap_bounds_iff (bitmap : Bitmap) (memory : Memory) (index : Word64) (value : Bool)
    (s : PageAllocator) {call : Call} (hcall : ∀ found, call ≠ .getPage found) :
    (Guarded bitmap memory index value ↔ index.toNat ≠ 8 * bitmap.size.toNat) ∧
      (operate s call).result = perform s call ∧
      ((operate s call).All (Inside s.pageBitmap) ↔
        ∀ addr ∈ call.pass.addrs, pageIndex addr ≠ 8 * s.pageBitmap.size.toNat) :=
  ⟨guarded_iff bitmap memory index value, operate_result s hcall,
    logged_inside_iff call.pass s⟩

/-- Page 7 of a bitmap of one byte. -/
theorem bitmap_bounds_seven :
    let s : PageAllocator := ⟨fun _ => 0, ⟨1, 0x100⟩, 0, 0, 0, true, 0, 0⟩
    Guarded ⟨1, 0x100⟩ (fun _ => 0) 7 true ∧
      (operate s (.lock 0x7000)).All (Inside s.pageBitmap) := by
  intro s
  have hlock : ∀ found, Call.lock 0x7000 ≠ .getPage found := fun found => Call.noConfusion
  have hbounds := bitmap_bounds_iff ⟨1, 0x100⟩ (fun _ => 0) 7 true s hlock
  refine ⟨hbounds.1.mpr (by decide), hbounds.2.2.mpr ?_⟩
  intro addr haddr
  rw [List.mem_singleton.mp haddr]
  decide

/-- `lock` of page 8 writes the byte after a bitmap of one byte. -/
theorem lock_behind_bitmap :
    let s : PageAllocator := ⟨fun _ => 0, ⟨1, 0x100⟩, 0, 0, 0, true, 0, 0⟩
    ¬ Guarded ⟨1, 0x100⟩ (fun _ => 0) 8 true ∧ (s.lock 0x8000).memory 0x101 = 0x80 := by
  refine ⟨fun hguarded => ?_, by decide⟩
  have hread : Inside ⟨1, 0x100⟩ 1 := hguarded.get_inside 1 (by decide)
  exact lt_irrefl _ hread

end RedX.BitmapBounds
