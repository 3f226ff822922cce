import RedX.Bootloader.KernelImage
import RedX.Core.AccessLog
import RedX.Screen.TextRenderer

/-!
# `efi_main`

The boot steps in their order, with the pointers they follow and what they end in.  The
variable `error` starts at 0; the steps that look for the kernel and check its header
record a failure by setting it to 0, only the font and the frame buffer set it to 1.
A step that follows a null pointer never comes to an end in this model.
-/

namespace RedX.EfiMain

open RedX.MachineWord
open RedX.ByteMemory
open RedX.AccessLog
open RedX.ElfFile
open RedX.KernelImage
open RedX.TextRenderer

/-- The pointers that `efi_main` follows and that a failed step leaves null. -/
inductive Pointer where
  | directory
  | kernel
  | fontFile
  | font
  | buffer
  | mode
  deriving DecidableEq

inductive Event where
  | dereference (pointer : Pointer) (null : Bool)
  | exitBootServices
  | kernelMain (entry : Word64)
  deriving DecidableEq

def emit (event : Event) : Logged Event Unit := access event ()

/-- Follow a pointer, which is null if there is no target. -/
def follow {α : Type} (pointer : Pointer) : Option α → Logged Event α
  | none => ⟨[.dereference pointer true], none⟩
  | some target => access (.dereference pointer false) target

/-- The files of a volume. -/
abbrev Directory := String → Option File

/-- The outcome of `GOPInit`'s calls: three status codes, and `gop->Mode` after them. -/
structure Gop where
  locateProtocol : Word64
  queryMode : Word64
  setMode : Word64
  mode : Option Framebuffer

/-- The outcomes of the boot steps. -/
structure Boot where
  /-- What `OpenVolume` leaves in `Directory` when the kernel is loaded. -/
  kernelVolume : Option Directory
  /-- What `OpenVolume` leaves in `Directory` when the font is loaded. -/
  fontVolume : Option Directory
  gop : Gop
  memory : Memory

/-- `loadFile`, which both callers give no directory. -/
def loadFile (volume : Option Directory) (path : String) : Logged Event (Option File) := do
  let directory ← follow .directory volume
  return directory path

/-! ## The kernel -/

/-- `memcmp` -/
def memcmp (a b : ℕ → Byte) : ℕ → Word32
  | 0 => 0
  | n + 1 =>
      if a 0 < b 0 then -1
      else if a 0 > b 0 then 1
      else memcmp (fun i => a (i + 1)) (fun i => b (i + 1)) n

def ELFMAG : List Byte := 0x7F :: literal "ELF"
def SELFMAG : ℕ := 4
def EI_CLASS : ℕ := 4
def EI_DATA : ℕ := 5
def ELFCLASS64 : Byte := 2
def ELFDATA2LSB : Byte := 1
def ET_EXEC : Word16 := 2
def EM_X86_64 : Word16 := 62
def EV_CURRENT : Word32 := 1

/-- The condition for `Bad Kernel`. -/
def badKernel (header : Elf64Ehdr) : Bool :=
  memcmp header.ident (fun i => ELFMAG.getD i 0) SELFMAG != 0 ||
    header.ident EI_CLASS != ELFCLASS64 ||
    header.ident EI_DATA != ELFDATA2LSB ||
    header.type != ET_EXEC ||
    header.machine != EM_X86_64 ||
    header.version != EV_CURRENT

/-- The six checks that a header passes. -/
structure Verified (header : Elf64Ehdr) : Prop where
  magic : ∀ i < SELFMAG, header.ident i = ELFMAG.getD i 0
  fileClass : header.ident EI_CLASS = ELFCLASS64
  data : header.ident EI_DATA = ELFDATA2LSB
  type : header.type = ET_EXEC
  machine : header.machine = EM_X86_64
  version : header.version = EV_CURRENT

/-! ## The font and the frame buffer -/

def PSF_MAGIC0 : Byte := 0x36
def PSF_MAGIC1 : Byte := 0x04

structure PsfHeader where
  magic0 : Byte
  magic1 : Byte
  mode : Byte
  charsize : Byte

structure PsfFont where
  header : PsfHeader
  bufferSize : Word64
  buffer : ℕ → Byte

/-- `sizeof(PSF_HEADER)` -/
def psfHeaderSize : Word64 := 4

def PsfHeader.decode (bytes : ℕ → Byte) : PsfHeader := ⟨bytes 0, bytes 1, bytes 2, bytes 3⟩

def PsfHeader.bufferSize (header : PsfHeader) : Word64 :=
  if header.mode = 1 then header.charsize.setWidth 64 * 512 else header.charsize.setWidth 64 * 256

/-- `loadPSFFont` -/
def loadPSFFont (firmware : Firmware) (volume : Option Directory) (path : String) :
    Logged Event (Option PsfFont) := do
  let font ← loadFile volume path
  if font.isNone then return none
  let file ← follow .fontFile font
  let header := PsfHeader.decode (firmware.read file 0 psfHeaderSize)
  if header.magic0 != PSF_MAGIC0 || header.magic1 != PSF_MAGIC1 then return none
  return some ⟨header, header.bufferSize, firmware.read file psfHeaderSize header.bufferSize⟩

/-- `EFI_ERROR(status)` -/
def efiError (status : Word64) : Bool := status.toInt < 0

def EFI_NOT_STARTED : Word64 := 0x8000000000000013

/-- `status` after the mode was queried, and set if the protocol had not started -/
def Gop.status (gop : Gop) : Word64 :=
  if gop.queryMode = EFI_NOT_STARTED then gop.setMode else gop.queryMode

/-- `GOPInit` -/
def GOPInit (gop : Gop) : Logged Event (Option Framebuffer) := do
  if efiError gop.locateProtocol then return none
  if efiError gop.status then return none
  let mode ← follow .mode gop.mode
  return some mode

/-! ## `efi_main` -/

/-- From `Pre init` to the frame buffer; the value of `error` is passed through. -/
def preInit (firmware : Firmware) (boot : Boot) (error : Byte) : Logged Event Byte := do
  let font ← loadPSFFont firmware boot.fontVolume "font.psf"
  let error ← (if font.isNone then pure 1 else do
    let _ ← follow .font font
    return error)
  let buffer ← GOPInit boot.gop
  if buffer.isNone then return 1
  else
    let _ ← follow .buffer buffer
    return error

/-- The jump to the kernel. -/
def jump (error : Byte) (entry : Word64) : Logged Event Unit :=
  if error = 0 then do
    emit .exitBootServices
    emit (.kernelMain entry)
  else pure ()

def efiMain (firmware : Firmware) (boot : Boot) : Logged Event Unit := do
  let error : Byte := 0
  let kernel ← loadFile boot.kernelVolume "kernel"
  let error := if kernel.isNone then 0 else error
  -- `Kernel->GetInfo` is called whether the file was found or not
  let file ← follow .kernel kernel
  let header := Elf64Ehdr.decode (firmware.read file 0 ehdrSize)
  let error := if badKernel header then 0 else error
  match loadKernel firmware file boot.memory with
  | none => hang
  | some _ => do
      let error ← preInit firmware boot error
      jump error header.entry

/-! ## What a safe start is -/

def kernelFile (boot : Boot) : Option File := boot.kernelVolume.bind fun volume => volume "kernel"

def fontFile (boot : Boot) : Option File := boot.fontVolume.bind fun volume => volume "font.psf"

/-- The kernel file was opened and its header passes the six checks. -/
def KernelVerified (firmware : Firmware) (boot : Boot) : Prop :=
  ∃ file, kernelFile boot = some file ∧ Verified (.decode (firmware.read file 0 ehdrSize))

/-- The font was found and begins with the magic bytes. -/
def FontAccepted (firmware : Firmware) (boot : Boot) : Prop :=
  ∃ file, fontFile boot = some file ∧ firmware.read file 0 psfHeaderSize 0 = PSF_MAGIC0 ∧
    firmware.read file 0 psfHeaderSize 1 = PSF_MAGIC1

/-- The protocol was located and has a mode. -/
def BufferObtained (gop : Gop) : Prop :=
  efiError gop.locateProtocol = false ∧ efiError gop.status = false ∧ gop.mode.isSome

/-- Only a verified kernel is started, and no file handle, font or buffer is followed while
it is null. -/
def Allowed (verified : Prop) : Event → Prop
  | .dereference .mode _ => True
  | .dereference _ null => null = false
  | .exitBootServices => verified
  | .kernelMain _ => verified

/-- Every event of `efi_main` is allowed. -/
def Safe (firmware : Firmware) (boot : Boot) : Prop :=
  (efiMain firmware boot).All
    (Allowed (KernelVerified firmware boot ∧ FontAccepted firmware boot ∧ BufferObtained boot.gop))

variable {firmware : Firmware} {boot : Boot} {verified : Prop} {α : Type}

theorem memcmp_eq_zero_iff (a b : ℕ → Byte) (n : ℕ) : memcmp a b n = 0 ↔ ∀ i < n, a i = b i := by
  induction n generalizing a b with
  | zero => simp [memcmp]
  | succ n ih =>
      rw [memcmp, Nat.forall_lt_succ_left, ← ih]
      split_ifs with hlt hgt
      · exact iff_of_false (by decide) fun hsame => absurd hsame.1 (by bv_omega)
      · exact iff_of_false (by decide) fun hsame => absurd hsame.1 (by bv_omega)
      · have hsame : a 0 = b 0 := by bv_omega
        exact (and_iff_right hsame).symm

theorem badKernel_eq_false_iff (header : Elf64Ehdr) :
    badKernel header = false ↔ Verified header := by
  simp only [badKernel, Bool.or_eq_false_iff, bne_eq_false_iff_eq, memcmp_eq_zero_iff]
  constructor
  · rintro ⟨⟨⟨⟨⟨hmagic, hclass⟩, hdata⟩, htype⟩, hmachine⟩, hversion⟩
    exact ⟨hmagic, hclass, hdata, htype, hmachine, hversion⟩
  · rintro ⟨hmagic, hclass, hdata, htype, hmachine, hversion⟩
    exact ⟨⟨⟨⟨⟨hmagic, hclass⟩, hdata⟩, htype⟩, hmachine⟩, hversion⟩

/-! ## One step -/

theorem all_follow {P : Event → Prop} (pointer : Pointer) (target : Option α) :
    (follow pointer target).All P ↔ P (.dereference pointer target.isNone) := by
  cases target with
  | none => simp [follow, Logged.All]
  | some value => exact all_access _ _

@[simp]
theorem result_follow (pointer : Pointer) (target : Option α) :
    (follow pointer target).result = target := by
  cases target with
  | none => rfl
  | some value => rfl

theorem loadFile_allowed (volume : Option Directory) (path : String) :
    (loadFile volume path).All (Allowed verified) ↔ volume.isSome := by
  rw [loadFile, all_bind, all_follow]
  cases volume <;> simp [Allowed]

theorem loadFile_result (volume : Option Directory) (path : String) :
    (loadFile volume path).result = volume.map fun directory => directory path := by
  rw [loadFile, result_bind, result_follow]
  cases volume <;> rfl

theorem loadPSFFont_allowed : (loadPSFFont firmware boot.fontVolume "font.psf").All
    (Allowed verified) ↔ boot.fontVolume.isSome := by
  rw [loadPSFFont, all_bind, loadFile_allowed, and_iff_left_iff_imp]
  intro _ font _
  cases font with
  | none => exact all_pure _
  | some file =>
      rw [Option.isNone_some, if_neg Bool.false_ne_true, all_bind, all_follow]
      refine ⟨rfl, fun file' _ => ?_⟩
      dsimp only
      split_ifs
      · exact all_pure _
      · exact all_pure _

/-- The font is accepted exactly when its file is found and has the magic bytes. -/
theorem loadPSFFont_result (firmware : Firmware) {root : Directory}
    (hvolume : boot.fontVolume = some root) :
    ∃ font, (loadPSFFont firmware boot.fontVolume "font.psf").result = some font ∧
      (font.isSome ↔ FontAccepted firmware boot) := by
  have hfile : fontFile boot = root "font.psf" := by rw [fontFile, hvolume]; rfl
  rw [loadPSFFont, result_bind, loadFile_result, hvolume]
  cases hfound : root "font.psf" with
  | none =>
      refine ⟨none, by simp [hfound], ?_⟩
      simp [FontAccepted, hfile, hfound]
  | some file =>
      rw [hfound] at hfile
      rw [Option.map_some, Option.bind_some, hfound, Option.isNone_some,
        if_neg Bool.false_ne_true, result_bind, result_follow, Option.bind_some]
      have haccepted : FontAccepted firmware boot ↔
          firmware.read file 0 psfHeaderSize 0 = PSF_MAGIC0 ∧
            firmware.read file 0 psfHeaderSize 1 = PSF_MAGIC1 := by
        simp [FontAccepted, hfile]
      rw [haccepted]
      dsimp only [PsfHeader.decode]
      split_ifs with hbad
      · refine ⟨none, rfl, ?_⟩
        simp only [Bool.or_eq_true, bne_iff_ne] at hbad
        simp only [Option.isSome_none, Bool.false_eq_true, false_iff]
        tauto
      · refine ⟨_, rfl, ?_⟩
        simp only [Bool.or_eq_true, bne_iff_ne] at hbad
        simp only [Option.isSome_some, true_iff]
        tauto

theorem GOPInit_allowed (gop : Gop) : (GOPInit gop).All (Allowed verified) := by
  unfold GOPInit
  split_ifs
  · exact all_pure _
  · exact all_pure _
  · exact (all_bind _ _).mpr ⟨(all_follow _ _).mpr trivial, fun _ _ => all_pure _⟩

theorem GOPInit_result_iff (gop : Gop) :
    (∃ frame, (GOPInit gop).result = some (some frame)) ↔ BufferObtained gop := by
  unfold GOPInit BufferObtained
  split_ifs with hlocate hstatus
  · simp [hlocate]
  · simp [hstatus]
  · cases hmode : gop.mode <;> simp [hlocate, hstatus]

theorem preInit_allowed (error : Byte) :
    (preInit firmware boot error).All (Allowed verified) ↔ boot.fontVolume.isSome := by
  rw [preInit, all_bind, loadPSFFont_allowed, and_iff_left_iff_imp]
  intro _ font _
  rw [all_bind]
  constructor
  · cases font with
    | none => exact all_pure _
    | some font =>
        rw [Option.isNone_some, if_neg Bool.false_ne_true, all_bind, all_follow]
        exact ⟨rfl, fun _ _ => all_pure _⟩
  · intro error _
    rw [all_bind]
    refine ⟨GOPInit_allowed boot.gop, fun buffer _ => ?_⟩
    cases buffer with
    | none => exact all_pure _
    | some buffer =>
        rw [Option.isNone_some, if_neg Bool.false_ne_true, all_bind, all_follow]
        exact ⟨rfl, fun _ _ => all_pure _⟩

/-- No error is recorded from here on exactly when font and frame buffer are there. -/
theorem preInit_result_iff {root : Directory} (hvolume : boot.fontVolume = some root) :
    (preInit firmware boot 0).result = some 0 ↔
      FontAccepted firmware boot ∧ BufferObtained boot.gop := by
  obtain ⟨font, hfont, haccepted⟩ := loadPSFFont_result firmware hvolume
  rw [preInit, result_bind, hfont, Option.bind_some, ← haccepted, ← GOPInit_result_iff]
  cases font with
  | none =>
      rw [Option.isNone_none, if_pos rfl, result_bind, result_pure, Option.bind_some, result_bind]
      refine iff_of_false ?_ (by simp)
      intro hzero
      obtain ⟨buffer, -, hlast⟩ := Option.bind_eq_some_iff.mp hzero
      cases buffer with
      | none => exact absurd (Option.some.inj hlast) (by decide)
      | some frame => exact absurd (Option.some.inj hlast) (by decide)
  | some font =>
      rw [Option.isNone_some, if_neg Bool.false_ne_true, result_bind, result_bind, result_follow,
        Option.bind_some, result_pure, Option.bind_some, result_bind]
      constructor
      · intro hzero
        obtain ⟨buffer, hbuffer, hlast⟩ := Option.bind_eq_some_iff.mp hzero
        cases buffer with
        | none => exact absurd (Option.some.inj hlast) (by decide)
        | some frame => exact ⟨rfl, frame, hbuffer⟩
      · rintro ⟨-, frame, hframe⟩
        rw [hframe]
        rfl

theorem jump_allowed (error : Byte) (entry : Word64) :
    (jump error entry).All (Allowed verified) ↔ (error = 0 → verified) := by
  unfold jump
  split_ifs with hzero
  · rw [all_bind, emit, emit, all_access, all_access, imp_iff_right hzero]
    exact and_iff_left_of_imp fun hverified _ _ => hverified
  · exact iff_of_true (all_pure _) fun hsame => absurd hsame hzero

/-! ## The whole start -/

/-- What follows once the kernel's handle is there. -/
theorem start_allowed_iff {root : Directory} (hvolume : boot.fontVolume = some root)
    (entry : Word64) :
    (preInit firmware boot 0 >>= fun error => jump error entry).All (Allowed verified) ↔
      (FontAccepted firmware boot ∧ BufferObtained boot.gop → verified) := by
  rw [all_bind, preInit_allowed, hvolume, Option.isSome_some, and_iff_right rfl,
    ← preInit_result_iff hvolume]
  constructor
  · intro hjump hresult
    exact (jump_allowed 0 entry).mp (hjump 0 hresult) rfl
  · intro hverified error hresult
    rw [jump_allowed]
    rintro rfl
    exact hverified hresult

/-- The start is safe if and only if the kernel is found, the volume of the font opens, and
the header passes the six checks unless the font or the frame buffer is missing. -/
theorem efiMain_safe_iff (firmware : Firmware) (boot : Boot) : Safe firmware boot ↔
    (kernelFile boot).isSome ∧ boot.fontVolume.isSome ∧
      (FontAccepted firmware boot ∧ BufferObtained boot.gop → KernelVerified firmware boot) := by
  unfold Safe
  rw [efiMain, all_bind, loadFile_allowed, loadFile_result]
  cases hvolume : boot.kernelVolume with
  | none => simp [kernelFile, hvolume]
  | some volume =>
      have hfile : kernelFile boot = volume "kernel" := by rw [kernelFile, hvolume]; rfl
      simp only [Option.isSome_some, true_and, Option.map_some, Option.some.injEq, forall_eq']
      rw [all_bind, all_follow, hfile, result_follow]
      cases hkernel : volume "kernel" with
      | none => simp [Allowed]
      | some file =>
          obtain ⟨loaded, hload⟩ := loadKernel_returns firmware file boot.memory
          have hzero : ∀ bad : Bool,
              (if bad then 0 else (if (some file).isNone then 0 else 0) : Byte) = 0 := by
            intro bad
            cases bad <;> rfl
          simp only [Option.some.injEq, forall_eq', hload, hzero, Option.isSome_some, true_and]
          rw [and_iff_right (show Allowed _ (.dereference .kernel (some file).isNone) from rfl)]
          cases hfont : boot.fontVolume with
          | none =>
              rw [all_bind, preInit_allowed, hfont]
              simp
          | some root =>
              rw [start_allowed_iff hfont, Option.isSome_some, and_iff_right rfl]
              exact imp_congr_right fun hready => and_iff_left hready

/-- A volume with a font, and a kernel file if there is one; the frame buffer is found. -/
def bootWith (kernel : Option File) : Boot where
  kernelVolume := some fun path => if path = "kernel" then kernel else none
  fontVolume := some fun path => if path = "font.psf" then some [0x36, 0x04, 0, 16] else none
  gop := ⟨0, 0, 0, some ⟨0x80000000, 0x300000, 1024, 768, 1024⟩⟩
  memory := fun _ => 0

/-- A kernel file of 64 zeros, which fails all six checks, is started; and without a
kernel file the first step follows its null handle. -/
theorem unverified_kernel_started :
    (Event.kernelMain 0 ∈ (efiMain plainFirmware (bootWith (some (List.replicate 64 0)))).log ∧
      ¬ KernelVerified plainFirmware (bootWith (some (List.replicate 64 0))) ∧
      ¬ Safe plainFirmware (bootWith (some (List.replicate 64 0)))) ∧
    ((efiMain plainFirmware (bootWith none)).log =
        [.dereference .directory false, .dereference .kernel true] ∧
      ¬ Safe plainFirmware (bootWith none)) := by
  have hmissing : (efiMain plainFirmware (bootWith none)).log =
      [.dereference .directory false, .dereference .kernel true] := by
    decide +kernel
  have hstarted : Event.kernelMain 0 ∈
      (efiMain plainFirmware (bootWith (some (List.replicate 64 0)))).log := by
    decide +kernel
  have hunverified : ¬ KernelVerified plainFirmware (bootWith (some (List.replicate 64 0))) := by
    rintro ⟨file, hfile, hverified⟩
    obtain rfl : List.replicate 64 0 = file := by
      simpa [kernelFile, bootWith] using hfile
    exact absurd ((badKernel_eq_false_iff _).mpr hverified) (by decide +kernel)
  refine ⟨⟨hstarted, hunverified, fun hsafe => ?_⟩, hmissing, fun hsafe => ?_⟩
  · exact hunverified (hsafe _ hstarted).1
  · have hnull := hsafe (.dereference .kernel true) (by rw [hmissing]; decide)
    exact absurd hnull (by simp [Allowed])

end RedX.EfiMain
