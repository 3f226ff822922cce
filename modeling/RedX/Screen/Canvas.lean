import RedX.Core.Layers
import RedX.Screen.PixelBounds

/-!
# The frame buffer as a canvas

The points of the canvas are the pixels of the frame buffer, numbered as they stand in
memory.  A memory is the picture that is seen and the bytes outside the frame buffer.
-/

namespace RedX.Canvas

open RedX.MachineWord
open RedX.ByteMemory
open RedX.Layers
open RedX.TextRenderer
open RedX.GlyphRenderers
open RedX.PixelBounds

/-- A frame buffer of whole pixels that 32-bit offsets do not leave at the end of memory. -/
structure Display (buffer : Framebuffer) : Prop where
  whole : buffer.size.toNat % 4 = 0
  small : buffer.size.toNat < 2 ^ 32
  low : buffer.baseAddr.toNat + 2 ^ 32 ≤ 2 ^ 64

def pixelAt (buffer : Framebuffer) (point : ℕ) : Word64 :=
  buffer.baseAddr + BitVec.ofNat 64 (4 * point)

def picture (buffer : Framebuffer) (memory : Memory) (point : ℕ) : Word32 :=
  load32 memory (pixelAt buffer point)

variable {buffer : Framebuffer} {memory : Memory} {color : Word32} {point : ℕ}

theorem eq_of_picture {memory' : Memory}
    (hrest : AgreeOutside (frame buffer) memory memory')
    (hpicture : ∀ point, 4 * point < buffer.size.toNat →
      picture buffer memory' point = picture buffer memory point) : memory' = memory := by
  funext address
  by_cases hinside : address ∈ frame buffer
  · have hoffset : offset buffer.baseAddr address < buffer.size.toNat := hinside
    have hsplit : pixelAt buffer (offset buffer.baseAddr address / 4) +
        BitVec.ofNat 64 (offset buffer.baseAddr address % 4) = address := by
      rw [pixelAt, BitVec.add_assoc, ← BitVec.ofNat_add, Nat.div_add_mod, add_offset]
    have hindex : offset buffer.baseAddr address % 4 < 4 := Nat.mod_lt _ (by decide)
    have hsame := hpicture (offset buffer.baseAddr address / 4) (by omega)
    calc memory' address
        = byteOf (picture buffer memory' (offset buffer.baseAddr address / 4))
            (offset buffer.baseAddr address % 4) := by
          rw [picture, byteOf_load32 _ _ hindex, hsplit]
      _ = memory address := by rw [hsame, picture, byteOf_load32 _ _ hindex, hsplit]
  · exact hrest address hinside

/-- The frame buffer is what is painted on. -/
def frameCanvas (buffer : Framebuffer) : Canvas Memory ℕ Word32 where
  points := {point | 4 * point < buffer.size.toNat}
  shown := picture buffer
  rest :=
    { r := AgreeOutside (frame buffer)
      iseqv :=
        { refl := AgreeOutside.refl _
          symm := fun hagree address houtside => (hagree address houtside).symm
          trans := AgreeOutside.trans } }
  ext := fun _ _ hrest hpicture => eq_of_picture hrest hpicture

/-! ## Single pixels -/

/-- The check of a pixel against the end of the frame buffer. -/
theorem pixelAt_lt_iff (hdisplay : Display buffer)
    (hpoint : buffer.baseAddr.toNat + 4 * point < 2 ^ 64) :
    pixelAt buffer point < buffer.baseAddr + buffer.size ↔ 4 * point < buffer.size.toNat := by
  have hsmall := hdisplay.small
  have hlow := hdisplay.low
  rw [pixelAt, BitVec.lt_def, BitVec.toNat_add, BitVec.toNat_add, BitVec.toNat_ofNat]
  omega

theorem store32_paints (hdisplay : Display buffer) (hpoint : 4 * point < buffer.size.toNat)
    (memory : Memory) (color : Word32) :
    (frameCanvas buffer).Paints (ink {point} color) memory
      (store32 memory (pixelAt buffer point) color) := by
  have hwhole := hdisplay.whole
  have hsmall := hdisplay.small
  constructor
  · intro other hother
    change 4 * other < buffer.size.toNat at hother
    change picture buffer _ other = (ink {point} color).over (picture buffer memory) other
    by_cases hsame : other = point
    · rw [hsame, ink_over_of_mem (Set.mem_singleton point), picture, load32_store32]
    · have hclear : other ∉ ({point} : Set ℕ) := hsame
      rw [ink_over_of_not_mem hclear, picture, picture]
      apply load32_store_of_apart
      intro address haddress
      rw [pixelAt, offset_add _ _ (by omega)] at haddress ⊢
      have hbound := offset_lt buffer.baseAddr address
      omega
  · apply agreeOutside_store
    intro address haddress
    have hbound := offset_lt buffer.baseAddr address
    rw [pixelAt, offset_add _ _ (by omega)] at haddress
    change offset buffer.baseAddr address < buffer.size.toNat
    omega

/-- A store behind the check of its pixel; a pixel that fails it is not on the canvas. -/
theorem checked_paints (hdisplay : Display buffer)
    (hpoint : buffer.baseAddr.toNat + 4 * point < 2 ^ 64) (memory : Memory) (color : Word32) :
    (frameCanvas buffer).Paints (ink {point} color) memory
      (if pixelAt buffer point < buffer.baseAddr + buffer.size then
        store32 memory (pixelAt buffer point) color
      else memory) := by
  by_cases hinside : 4 * point < buffer.size.toNat
  · rw [if_pos ((pixelAt_lt_iff hdisplay hpoint).mpr hinside)]
    exact store32_paints hdisplay hinside memory color
  · rw [if_neg (mt (pixelAt_lt_iff hdisplay hpoint).mp hinside)]
    refine (Canvas.Paints.refl _ memory).congr fun other hother => ink_of_not_mem ?_
    rintro rfl
    exact hinside hother

end RedX.Canvas
