import RedX.Screen.GlyphRenderers

/-!
# Bounds of `Screen::pixel`

The check of `Screen::pixel` computes a byte offset with `ppsl` in 32 bits, so it loses the
two upper bits of the pixel number; the store computes the number with `Width` in 32 bits
and scales it in 64.
-/

namespace RedX.PixelBounds

open RedX.MachineWord
open RedX.ByteMemory
open RedX.TextRenderer
open RedX.GlyphRenderers

/-- `color |= b; color |= g << 8; color |= r << 16; color |= a << 24` -/
def argb (a r g b : Byte) : Word32 :=
  0 ||| b.setWidth 32 ||| g.setWidth 32 <<< 8 ||| r.setWidth 32 <<< 16 ||| a.setWidth 32 <<< 24

/-- `Screen::pixel(int x, int y, uint8_t a, uint8_t r, uint8_t g, uint8_t b)` -/
def Screen.pixelArgb (screen : Screen) (memory : Memory) (x y : Word32) (a r g b : Byte) :
    Memory := screen.pixel memory x y (argb a r g b)

/-- The bytes of the frame buffer. -/
def frame (buffer : Framebuffer) : Set Word64 :=
  {address | offset buffer.baseAddr address < buffer.size.toNat}

/-- Neither overload writes outside the frame buffer. -/
def Safe (buffer : Framebuffer) (x y : Word32) : Prop :=
  (∀ memory color, AgreeOutside (frame buffer) memory (Screen.pixel ⟨buffer⟩ memory x y color)) ∧
    ∀ memory a r g b,
      AgreeOutside (frame buffer) memory (Screen.pixelArgb ⟨buffer⟩ memory x y a r g b)

/-- Where the check takes the pixel to be: its number in scan lines modulo `2 ^ 30`. -/
def seen (buffer : Framebuffer) (x y : Word32) : ℕ :=
  (x.toNat + y.toNat * buffer.ppsl.toNat) % 2 ^ 30

/-- The number of the pixel in rows modulo `2 ^ 32`. -/
def placed (buffer : Framebuffer) (x y : Word32) : ℕ :=
  (x.toNat + y.toNat * buffer.width.toNat) % 2 ^ 32

/-- A pixel that the check takes to be in the frame buffer is placed in it. -/
def PlacedInside (buffer : Framebuffer) (x y : Word32) : Prop :=
  buffer.baseAddr + BitVec.ofNat 64 (4 * seen buffer x y) < buffer.baseAddr + buffer.size →
    4 * placed buffer x y + 4 ≤ buffer.size.toNat

instance (buffer : Framebuffer) (x y : Word32) : Decidable (PlacedInside buffer x y) :=
  inferInstanceAs (Decidable (_ → _))

variable {buffer : Framebuffer} {x y color : Word32} {memory : Memory}

theorem check_eq (buffer : Framebuffer) (x y : Word32) :
    (x * 4 + y * buffer.ppsl * 4).setWidth 64 = BitVec.ofNat 64 (4 * seen buffer x y) := by
  have hword : x * 4 + y * buffer.ppsl * 4 =
      BitVec.ofNat 32 (pixelOffset buffer.ppsl.toNat x.toNat y.toNat) := by
    simp only [ofNat_pixelOffset, BitVec.ofNat_toNat, BitVec.setWidth_eq]
  apply BitVec.eq_of_toNat_eq
  rw [hword, BitVec.toNat_setWidth, BitVec.toNat_ofNat, BitVec.toNat_ofNat, pixelOffset, seen]
  omega

theorem store_eq (buffer : Framebuffer) (x y : Word32) :
    (x + y * buffer.width).setWidth 64 * 4 = BitVec.ofNat 64 (4 * placed buffer x y) := by
  have hword : (x + y * buffer.width).toNat = placed buffer x y := by
    rw [placed, BitVec.toNat_add, BitVec.toNat_mul, Nat.add_mod_mod]
  have hlt : placed buffer x y < 2 ^ 32 := Nat.mod_lt _ (by decide)
  apply BitVec.eq_of_toNat_eq
  rw [BitVec.toNat_mul, BitVec.toNat_setWidth, hword, BitVec.toNat_ofNat,
    show (4 : Word64).toNat = 4 from rfl]
  omega

/-- `Screen::pixel` in terms of the two numbers. -/
theorem pixel_eq (buffer : Framebuffer) (memory : Memory) (x y color : Word32) :
    Screen.pixel ⟨buffer⟩ memory x y color =
      if buffer.baseAddr + BitVec.ofNat 64 (4 * seen buffer x y) < buffer.baseAddr + buffer.size
      then store32 memory (buffer.baseAddr + BitVec.ofNat 64 (4 * placed buffer x y)) color
      else memory := by
  rw [Screen.pixel, check_eq, store_eq, BitVec.add_comm]

/-- Four bytes at an offset in the frame buffer. -/
theorem store32_agreeOutside_iff {place : ℕ} (hplace : place + 4 < 2 ^ 64) :
    (∀ memory color, AgreeOutside (frame buffer) memory
      (store32 memory (buffer.baseAddr + BitVec.ofNat 64 place) color)) ↔
      place + 4 ≤ buffer.size.toNat := by
  constructor
  · intro hstore
    by_contra hpast
    let last := buffer.baseAddr + BitVec.ofNat 64 (place + 3)
    have hbefore : last ∉ frame buffer := by
      change ¬ offset buffer.baseAddr _ < _
      rw [offset_add_ofNat _ (by omega)]
      omega
    have hlast : offset (buffer.baseAddr + BitVec.ofNat 64 place) last = 3 := by
      rw [offset_add_add _ (by omega) (by omega)]
      omega
    have hkept := hstore (fun _ => 0) 0xFFFFFFFF last hbefore
    rw [store32, store_of_offset_lt (by rw [hlast]; decide), hlast] at hkept
    exact absurd hkept (show byteOf (0xFFFFFFFF : Word32) 3 ≠ (0 : Byte) by decide)
  · intro hinside memory color
    refine agreeOutside_store memory _ fun address hoffset => ?_
    change offset buffer.baseAddr address < _
    have haddress := offset_lt buffer.baseAddr address
    rw [offset_add _ _ (by omega)] at hoffset
    omega

/-- For every frame buffer and every pair of coordinates `Screen::pixel` writes no byte
outside the frame buffer exactly where the pixel is placed inside or fails the check. -/
theorem pixel_safe_iff (buffer : Framebuffer) (x y : Word32) :
    Safe buffer x y ↔ PlacedInside buffer x y := by
  have hlt : placed buffer x y < 2 ^ 32 := Nat.mod_lt _ (by decide)
  have hpixel : Safe buffer x y ↔ ∀ memory color,
      AgreeOutside (frame buffer) memory (Screen.pixel ⟨buffer⟩ memory x y color) :=
    ⟨And.left, fun hpixel => ⟨hpixel, fun memory a r g b => hpixel memory (argb a r g b)⟩⟩
  rw [hpixel, PlacedInside]
  simp only [pixel_eq]
  split_ifs with hpasses
  · rw [imp_iff_right hpasses]
    exact store32_agreeOutside_iff (by omega)
  · exact iff_of_true (fun memory _ => AgreeOutside.refl _ memory) fun hpass =>
      absurd hpass hpasses

/-- The pixels of the screen are safe. -/
theorem safe_of_onScreen (hwidth : buffer.width.toNat ≤ buffer.ppsl.toNat)
    (hfits : buffer.height.toNat * buffer.ppsl.toNat * 4 ≤ buffer.size.toNat)
    (hx : x.toNat < buffer.width.toNat) (hy : y.toNat < buffer.height.toNat) :
    Safe buffer x y := by
  refine (pixel_safe_iff buffer x y).mpr fun _ => ?_
  have hrows : (y.toNat + 1) * buffer.width.toNat ≤
      buffer.height.toNat * buffer.ppsl.toNat := Nat.mul_le_mul hy hwidth
  have hplaced : placed buffer x y ≤ x.toNat + y.toNat * buffer.width.toNat := Nat.mod_le _ _
  rw [Nat.succ_mul] at hrows
  omega

/-- A screen of one cell without padding: the pixel `2 ^ 30` of the first row passes the
check as pixel 0 and is stored 4 GiB behind the start of the frame buffer. -/
theorem pixel_stored_outside :
    let buffer : Framebuffer := ⟨0x80000000, 512, 8, 16, 8⟩
    (buffer.width.toNat ≤ buffer.ppsl.toNat ∧
      buffer.height.toNat * buffer.ppsl.toNat * 4 ≤ buffer.size.toNat ∧
      buffer.size.toNat % 4 = 0 ∧ buffer.size.toNat < 2 ^ 32) ∧
      (0x180000000 : Word64) ∉ frame buffer ∧
      Screen.pixel ⟨buffer⟩ (fun _ => 0) 0x40000000 0 0xFFFFFFFF 0x180000000 = 0xFF ∧
      ¬ Safe buffer 0x40000000 0 := by
  intro buffer
  have houtside : (0x180000000 : Word64) ∉ frame buffer := by
    change ¬ offset _ _ < _
    decide
  refine ⟨by decide, houtside, by decide, fun hsafe => ?_⟩
  exact absurd (hsafe.1 (fun _ => 0) 0xFFFFFFFF _ houtside) (by decide)

end RedX.PixelBounds
