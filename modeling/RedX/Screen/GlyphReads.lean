import RedX.Bootloader.EfiMain
import RedX.Screen.GlyphRenderers

/-!
# What the glyph renderers read

Both renderers find a glyph with a character that is a signed `char` and read sixteen rows
of it, whatever the size of a character in the font is.  The boot loader allocates the
buffer by that size.
-/

namespace RedX.GlyphReads

open RedX.MachineWord
open RedX.ByteMemory
open RedX.AccessLog
open RedX.TextRenderer
open RedX.GlyphRenderers
open RedX.KernelImage (Firmware plainFirmware)
open RedX.EfiMain (Directory loadPSFFont)

/-- A read of `*fontPtr` with the row of the cell that is drawn from it. -/
abbrev Read := ℕ × Word64

/-- The loop over the columns of a row. -/
def drawRowLogged (fontPtr : Word64) (x y : Word32) (put : Memory → Word64 → Word64 → Memory)
    (row : ℕ) (memory : Memory) : Logged Read Memory :=
  forLogged ((x + 8).toNat - x.toNat) (fun column memory => do
    let address := fontPtr + BitVec.ofNat 64 row
    let byte ← access (row, address) (memory address)
    return if byte &&& (0b10000000#8 >>> column) > 0 then
      put memory (x.setWidth 64 + BitVec.ofNat 64 column) (y.setWidth 64 + BitVec.ofNat 64 row)
    else memory) memory

/-- `drawGlyph` with its reads of the font. -/
def drawGlyphLogged (font : PsfFont) (chr : Byte) (x y : Word32)
    (put : Memory → Word64 → Word64 → Memory) (memory : Memory) : Logged Read Memory :=
  if chr = 0x00 then pure memory
  else
    let glyph := (chr.signExtend 32 * font.charsize.setWidth 32).signExtend 64
    let fontPtr := font.buffer + glyph
    forLogged ((y + 16).toNat - y.toNat) (drawRowLogged fontPtr x y put) memory

def drawCharLogged (font : PsfFont) (screen : Screen) (memory : Memory) (chr : Byte)
    (x y color : Word32) : Logged Read Memory :=
  drawGlyphLogged font chr x y
    (fun memory c u => screen.pixel memory (c.setWidth 32) (u.setWidth 32) color) memory

def printCharLogged (font : PsfFont) (buffer : Framebuffer) (memory : Memory) (chr : Byte)
    (x y color : Word32) : Logged Read Memory :=
  drawGlyphLogged font chr x y (fun memory c u => buffer.putPixel memory c u color) memory

/-- The read is inside the glyph buffer, and what is drawn in a row is that row of the
character's own glyph. -/
def OwnRow (font : PsfFont) (bufferSize : Word64) (chr : Byte) (read : Read) : Prop :=
  offset font.buffer read.2 < bufferSize.toNat ∧ read.1 < font.charsize.toNat ∧
    offset font.buffer read.2 = chr.toNat * font.charsize.toNat + read.1

/-- All reads of the two renderers are such, wherever and on whatever they draw. -/
def ReadsOwnGlyph (font : PsfFont) (bufferSize : Word64) (chr : Byte) : Prop :=
  (∀ screen memory x y color,
    (drawCharLogged font screen memory chr x y color).All (OwnRow font bufferSize chr)) ∧
  ∀ buffer memory x y color,
    (printCharLogged font buffer memory chr x y color).All (OwnRow font bufferSize chr)

variable {font : PsfFont} {chr : Byte} {x y : Word32} {bufferSize : Word64}
  {put : Memory → Word64 → Word64 → Memory} {P : Read → Prop}

/-! ## The reads of a glyph -/

/-- Address of a row of the glyph as the renderers compute it. -/
def rowAddress (font : PsfFont) (chr : Byte) (row : ℕ) : Word64 :=
  font.buffer + (chr.signExtend 32 * font.charsize.setWidth 32).signExtend 64 +
    BitVec.ofNat 64 row

theorem drawGlyphLogged_result (font : PsfFont) (chr : Byte) (x y : Word32)
    (put : Memory → Word64 → Word64 → Memory) (memory : Memory) :
    (drawGlyphLogged font chr x y put memory).result =
      some (drawGlyph font chr x y put memory) := by
  rw [drawGlyphLogged, drawGlyph]
  split_ifs with hzero
  · rfl
  · exact forLogged_result (fun row memory =>
      forLogged_result (fun column memory => rfl) memory) memory

theorem drawCharLogged_result (screen : Screen) (memory : Memory) (color : Word32) :
    (drawCharLogged font screen memory chr x y color).result =
      some (TerminalRenderer.drawChar ⟨font⟩ screen memory chr x y color) :=
  drawGlyphLogged_result _ _ _ _ _ _

theorem printCharLogged_result (buffer : Framebuffer) (memory : Memory) (color : Word32) :
    (printCharLogged font buffer memory chr x y color).result =
      some (BasicRenderer.printCharAt ⟨buffer, font⟩ memory chr x y color) := by
  rw [printCharAt_eq_drawGlyph]
  exact drawGlyphLogged_result _ _ _ _ _ _

/-- Each row that is drawn is read once for each column. -/
theorem drawRowLogged_reads (fontPtr : Word64) (x y : Word32)
    (put : Memory → Word64 → Word64 → Memory) (P : Read → Prop) (row : ℕ) (memory : Memory) :
    (drawRowLogged fontPtr x y put row memory).Returns ∧
      ((drawRowLogged fontPtr x y put row memory).All P ↔
        ∀ column < (x + 8).toNat - x.toNat, P (row, fontPtr + BitVec.ofNat 64 row)) := by
  refine forLogged_all_iff (fun column current => ?_) (fun column current => ?_) memory
  · exact returns_bind (returns_access _ _) fun _ _ => returns_pure _
  · rw [all_bind, all_access]
    exact and_iff_left fun _ _ => all_pure _

theorem drawGlyphLogged_all_iff (memory : Memory) :
    (drawGlyphLogged font chr x y put memory).All P ↔
      (chr ≠ 0 → ∀ row < (y + 16).toNat - y.toNat, ∀ column < (x + 8).toNat - x.toNat,
        P (row, rowAddress font chr row)) := by
  rw [drawGlyphLogged]
  split_ifs with hzero
  · exact iff_of_true (all_pure memory) fun hchr => absurd hzero hchr
  · rw [imp_iff_right hzero]
    have hrow := fun fontPtr => drawRowLogged_reads fontPtr x y put P
    exact (forLogged_all_iff (fun row before => (hrow _ row before).1)
      (fun row before => (hrow _ row before).2) memory).2

/-! ## Where the rows are -/

theorem toNat_signExtend_char (chr : Byte) : (chr.signExtend 32).toNat =
    if chr.toNat < 128 then chr.toNat else 2 ^ 32 - 256 + chr.toNat := by
  have hchr := chr.isLt
  have hmsb : chr.msb = decide (128 ≤ chr.toNat) := BitVec.msb_eq_decide chr
  rw [BitVec.toNat_signExtend, BitVec.toNat_setWidth, hmsb]
  by_cases hlow : chr.toNat < 128
  · rw [if_pos hlow, decide_eq_false (by omega)]
    simp only [Bool.false_eq_true, ↓reduceIte]
    omega
  · rw [if_neg hlow, decide_eq_true (by omega)]
    simp only [↓reduceIte]
    omega

theorem offset_rowAddress (font : PsfFont) (chr : Byte) {row : ℕ} (hrow : row < 2 ^ 64) :
    offset font.buffer (rowAddress font chr row) =
      (((chr.signExtend 32 * font.charsize.setWidth 32).signExtend 64).toNat + row) % 2 ^ 64 := by
  rw [rowAddress, offset, BitVec.add_assoc, BitVec.add_comm, BitVec.add_sub_cancel,
    BitVec.toNat_add, BitVec.toNat_ofNat, Nat.mod_eq_of_lt hrow]

theorem toNat_setWidth_charsize (charsize : Byte) :
    (charsize.setWidth 32).toNat = charsize.toNat := by
  have hsize := charsize.isLt
  rw [BitVec.toNat_setWidth]
  omega

/-- The rows of a character below 128 follow the glyphs before it. -/
theorem offset_rowAddress_of_lt (font : PsfFont) (hchr : chr.toNat < 128) {row : ℕ}
    (hrow : row < 16) :
    offset font.buffer (rowAddress font chr row) = chr.toNat * font.charsize.toNat + row := by
  have hsize := font.charsize.isLt
  have hplace : chr.toNat * font.charsize.toNat ≤ 127 * 255 :=
    Nat.mul_le_mul (by omega) (by omega)
  have hproduct : (chr.signExtend 32 * font.charsize.setWidth 32).toNat =
      chr.toNat * font.charsize.toNat := by
    rw [BitVec.toNat_mul, toNat_signExtend_char, if_pos hchr, toNat_setWidth_charsize]
    omega
  rw [offset_rowAddress _ _ (by omega), toNat_signExtend_of_lt (by omega), hproduct]
  omega

/-- A character that is negative as a `char` is looked for in front of the buffer. -/
theorem offset_rowAddress_of_ge (font : PsfFont) (hchr : 128 ≤ chr.toNat)
    (hsize : 0 < font.charsize.toNat) :
    offset font.buffer (rowAddress font chr 0) + 256 * font.charsize.toNat =
      2 ^ 64 + chr.toNat * font.charsize.toNat := by
  have hbyte := font.charsize.isLt
  have hbelow : chr.toNat * font.charsize.toNat < 256 * font.charsize.toNat :=
    Nat.mul_lt_mul_of_pos_right chr.isLt hsize
  have hproduct : (chr.signExtend 32 * font.charsize.setWidth 32).toNat =
      2 ^ 32 + chr.toNat * font.charsize.toNat - 256 * font.charsize.toNat := by
    rw [BitVec.toNat_mul, toNat_signExtend_char, if_neg (by omega), toNat_setWidth_charsize,
      Nat.add_mul]
    omega
  rw [offset_rowAddress _ _ (by decide), toNat_signExtend_of_ge (by omega), hproduct]
  omega

/-! ## Fonts of the boot loader -/

theorem bufferSize_ge (header : EfiMain.PsfHeader) :
    256 * header.charsize.toNat ≤ header.bufferSize.toNat := by
  have hsize := header.charsize.isLt
  have hwide : (header.charsize.setWidth 64).toNat = header.charsize.toNat := by
    rw [BitVec.toNat_setWidth]
    omega
  rw [EfiMain.PsfHeader.bufferSize]
  split_ifs
  · rw [BitVec.toNat_mul, hwide, show (512 : Word64).toNat = 512 from rfl]
    omega
  · rw [BitVec.toNat_mul, hwide, show (256 : Word64).toNat = 256 from rfl]
    omega

/-- The buffer of a font that is accepted has the size that its header asks for. -/
theorem loadPSFFont_bufferSize {firmware : Firmware} {volume : Option Directory} {path : String}
    {loaded : EfiMain.PsfFont}
    (hloaded : (loadPSFFont firmware volume path).result = some (some loaded)) :
    loaded.bufferSize = loaded.header.bufferSize := by
  rw [loadPSFFont, result_bind, Option.bind_eq_some_iff] at hloaded
  obtain ⟨font, -, hloaded⟩ := hloaded
  split_ifs at hloaded with hnone
  · exact absurd hloaded (by simp)
  rw [result_bind, Option.bind_eq_some_iff] at hloaded
  obtain ⟨file, -, hloaded⟩ := hloaded
  dsimp only at hloaded
  split_ifs at hloaded with hmagic
  · exact absurd hloaded (by simp)
  · rw [result_pure, Option.some.injEq, Option.some.injEq] at hloaded
    rw [← hloaded]

/-- The characters of which the renderers read only their own glyph: NUL, which is not
drawn, and those below 128 if a glyph has all the rows that are drawn. -/
def Drawable (charsize chr : Byte) : Prop :=
  chr = 0 ∨ (chr.toNat < 128 ∧ 16 ≤ charsize.toNat)

theorem ownRow_of_drawable (hchr : chr.toNat < 128) (hrows : 16 ≤ font.charsize.toNat)
    (hsize : 256 * font.charsize.toNat ≤ bufferSize.toNat) {row : ℕ} (hrow : row < 16) :
    OwnRow font bufferSize chr (row, rowAddress font chr row) := by
  have hplace := offset_rowAddress_of_lt font hchr hrow
  have hbefore : (chr.toNat + 1) * font.charsize.toNat ≤ 256 * font.charsize.toNat :=
    Nat.mul_le_mul_right _ (by omega)
  rw [Nat.succ_mul] at hbefore
  refine ⟨?_, show row < _ by omega, hplace⟩
  change offset font.buffer (rowAddress font chr row) < _
  omega

/-- Whatever the two renderers draw with a font that the boot loader accepts, they read only
rows of the character's own glyph in the buffer exactly for the drawable characters. -/
theorem reads_own_glyph_iff {firmware : Firmware} {volume : Option Directory} {path : String}
    {loaded : EfiMain.PsfFont}
    (hloaded : (loadPSFFont firmware volume path).result = some (some loaded))
    (buffer : Word64) (chr : Byte) :
    ReadsOwnGlyph ⟨loaded.header.charsize, buffer⟩ loaded.bufferSize chr ↔
      Drawable loaded.header.charsize chr := by
  let font : PsfFont := ⟨loaded.header.charsize, buffer⟩
  have hsize : 256 * font.charsize.toNat ≤ loaded.bufferSize.toNat := by
    rw [loadPSFFont_bufferSize hloaded]
    exact bufferSize_ge loaded.header
  constructor
  · rintro ⟨hdraw, -⟩
    rw [Drawable, or_iff_not_imp_left]
    intro hchr
    have hall := (drawGlyphLogged_all_iff _).mp (hdraw ⟨⟨0, 0, 0, 0, 0⟩⟩ (fun _ => 0) 0 0 0) hchr
    have hlast : (15 : ℕ) < font.charsize.toNat := (hall 15 (by decide) 0 (by decide)).2.1
    refine ⟨?_, hlast⟩
    by_contra hhigh
    have hfirst : offset font.buffer (rowAddress font chr 0) = chr.toNat * font.charsize.toNat :=
      (hall 0 (by decide) 0 (by decide)).2.2
    have hfront := offset_rowAddress_of_ge font (not_lt.mp hhigh) (by omega)
    have hbyte := font.charsize.isLt
    omega
  · intro hdrawable
    have hread : ∀ (x y : Word32) (put : Memory → Word64 → Word64 → Memory) (memory : Memory),
        (drawGlyphLogged font chr x y put memory).All (OwnRow font loaded.bufferSize chr) := by
      intro x y put memory
      refine (drawGlyphLogged_all_iff memory).mpr fun hchr row hrow column _ => ?_
      obtain ⟨hlow, hrows⟩ := hdrawable.resolve_left hchr
      exact ownRow_of_drawable hlow hrows hsize (by bv_omega)
    exact ⟨fun _ _ _ _ _ => hread _ _ _ _, fun _ _ _ _ _ => hread _ _ _ _⟩

/-- A volume with a font of 256 glyphs of this size. -/
def fontVolume (charsize : Byte) : Option Directory := some fun _ => some [0x36, 0x04, 0, charsize]

/-- The letter `A` in a font with sixteen rows. -/
theorem reads_own_glyph_letter :
    ∃ loaded, (loadPSFFont plainFirmware (fontVolume 16) "font.psf").result =
        some (some loaded) ∧
      ReadsOwnGlyph ⟨loaded.header.charsize, 0x90000000⟩ loaded.bufferSize 0x41 := by
  have hloaded : (loadPSFFont plainFirmware (fontVolume 16) "font.psf").result =
      some (some _) := rfl
  exact ⟨_, hloaded, (reads_own_glyph_iff hloaded _ _).mpr (.inr ⟨by decide, by decide⟩)⟩

/-- With sixteen rows the character 0x80 is read 2048 bytes in front of the buffer; with
fourteen rows the last two of `A` are rows of `B`. -/
theorem glyph_read_outside :
    (∃ loaded, (loadPSFFont plainFirmware (fontVolume 16) "font.psf").result =
        some (some loaded) ∧
      (0, 0x8FFFF800) ∈ (drawCharLogged ⟨loaded.header.charsize, 0x90000000⟩ ⟨⟨0, 0, 0, 0, 0⟩⟩
        (fun _ => 0) 0x80 0 0 0).log ∧
      ¬ ReadsOwnGlyph ⟨loaded.header.charsize, 0x90000000⟩ loaded.bufferSize 0x80) ∧
    ∃ loaded, (loadPSFFont plainFirmware (fontVolume 14) "font.psf").result =
        some (some loaded) ∧
      (14, 0x90000000 + 14 * 0x42) ∈ (drawCharLogged ⟨loaded.header.charsize, 0x90000000⟩
        ⟨⟨0, 0, 0, 0, 0⟩⟩ (fun _ => 0) 0x41 0 0 0).log ∧
      ¬ ReadsOwnGlyph ⟨loaded.header.charsize, 0x90000000⟩ loaded.bufferSize 0x41 := by
  refine ⟨⟨_, rfl, ?_⟩, ⟨_, rfl, ?_⟩⟩
  · have hread : (0, 0x8FFFF800) ∈ (drawCharLogged ⟨16, 0x90000000⟩ ⟨⟨0, 0, 0, 0, 0⟩⟩
        (fun _ => 0) 0x80 0 0 0).log := by
      decide +kernel
    exact ⟨hread, fun hreads => absurd (hreads.1 _ _ _ _ _ _ hread).1 (by decide)⟩
  · have hread : (14, 0x90000000 + 14 * 0x42) ∈ (drawCharLogged ⟨14, 0x90000000⟩
        ⟨⟨0, 0, 0, 0, 0⟩⟩ (fun _ => 0) 0x41 0 0 0).log := by
      decide +kernel
    exact ⟨hread, fun hreads => absurd (hreads.1 _ _ _ _ _ _ hread).2.1 (by decide)⟩

end RedX.GlyphReads
