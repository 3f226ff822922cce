import Mathlib.Data.List.GetD
import RedX.Core.PartialRun
import RedX.Terminal.Keyboard

/-!
# The characters that are typed

`lookup` shifts a key by an offset to the character in the table, also where the table has
none or a character that the offset turns into a control code, and its bound lets the
scancode after the last entry through.
-/

namespace RedX.TypedCharacters

open RedX.MachineWord
open RedX.PartialRun
open RedX.AccessLog
open RedX.TextTerminal
open RedX.KeyboardInput

/-- `lookup` with the entry of `ascii` that it reads. -/
def lookupLogged (beyond scancode : Byte) (uppercase : Bool) : Logged ℕ Byte :=
  if scancode > 58 then pure 0
  else access scancode.toNat (lookup beyond scancode uppercase)

def typedLogged (beyond : Byte) (keyboard : Keyboard) (scancode : Byte) :
    Logged ℕ (Keyboard × Option Byte) := do
  let chr ← lookupLogged beyond scancode (keyboard.leftShiftDown || keyboard.rightShiftDown)
  return (keyboard, if chr = 0 then none else some chr)

/-- `Keyboard.decode` with the entries of `ascii` that it reads. -/
def decodeLogged (beyond : Byte) (keyboard : Keyboard) (scancode : Byte) :
    Logged ℕ (Keyboard × Option Byte) :=
  if keyboard.mod then pure ({ keyboard with mod := false }, none)
  else if scancode = 0xE0 then pure ({ keyboard with mod := true }, none)
  else if scancode = LeftShift then pure ({ keyboard with leftShiftDown := true }, none)
  else if scancode = LeftShift + 0x80 then
    typedLogged beyond { keyboard with leftShiftDown := false } scancode
  else if scancode = RightShift then pure ({ keyboard with rightShiftDown := true }, none)
  else if scancode = RightShift + 0x80 then
    typedLogged beyond { keyboard with rightShiftDown := false } scancode
  else if scancode = Enter then pure (keyboard, some lineFeed)
  else if scancode = BackSpace then pure (keyboard, none)
  else if scancode = Spacebar then pure (keyboard, some space)
  else typedLogged beyond keyboard scancode

def Printable (chr : Byte) : Prop := 0x20 ≤ chr ∧ chr ≤ 0x7E

instance (chr : Byte) : Decidable (Printable chr) := inferInstanceAs (Decidable (_ ∧ _))

/-- What a key enqueues is printable, or the line feed of Enter, and it reads the table
inside. -/
def OnlyReal (beyond : Byte) (m : Machine) : Event → Prop
  | .key scancode =>
      (∀ chr, m.enqueues beyond (.key scancode) = some chr → Printable chr ∨
        (chr = lineFeed ∧ scancode = Enter ∧ m.keyboard.mod = false)) ∧
      (decodeLogged beyond m.keyboard scancode).All (· < ascii.length)
  | .handler => True

/-- The keys for which shift gives no character: those without one (error, Esc, Tab, Ctrl
and Alt) and the keys `- = ' , . /` and the `*` of the keypad. -/
def unshiftable : List Byte :=
  [0x00, 0x01, 0x0F, 0x1D, 0x38, 0x0C, 0x0D, 0x28, 0x33, 0x34, 0x35, 0x37]

def shiftDown (keyboard : Keyboard) : Bool := keyboard.leftShiftDown || keyboard.rightShiftDown

/-- A key that follows no prefix is not Caps Lock, and with a shift key down it is none of
those without a shifted character. -/
def Typeable (m : Machine) : Event → Prop
  | .key scancode => m.keyboard.mod = false →
      scancode ≠ 0x3A ∧ (shiftDown m.keyboard = true → scancode ∉ unshiftable)
  | .handler => True

instance (m : Machine) : ∀ event, Decidable (Typeable m event)
  | .key _ => inferInstanceAs (Decidable (_ → _))
  | .handler => isTrue trivial

variable {beyond scancode : Byte} {keyboard : Keyboard} {uppercase : Bool}

theorem lookup_of_gt (hgt : scancode > 58) : lookup beyond scancode uppercase = 0 := if_pos hgt

theorem lookupLogged_result :
    (lookupLogged beyond scancode uppercase).result =
      some (lookup beyond scancode uppercase) := by
  rw [lookupLogged]
  split_ifs with hgt
  · rw [lookup_of_gt hgt]
    rfl
  · rfl

theorem typedLogged_result (beyond : Byte) (keyboard : Keyboard) (scancode : Byte) :
    (typedLogged beyond keyboard scancode).result =
      some (keyboard.typed beyond scancode) := by
  rw [typedLogged, result_bind, lookupLogged_result]
  rfl

/-- The reads apart, it is `decode`. -/
theorem decodeLogged_result (beyond : Byte) (keyboard : Keyboard) (scancode : Byte) :
    (decodeLogged beyond keyboard scancode).result =
      some (keyboard.decode beyond scancode) := by
  simp only [decodeLogged, Keyboard.decode, apply_ite Logged.result, apply_ite some,
    result_pure, typedLogged_result]

/-- The table is left exactly with the scancode of Caps Lock. -/
theorem lookupLogged_inside_iff :
    (lookupLogged beyond scancode uppercase).All (· < ascii.length) ↔ scancode ≠ 0x3A := by
  have hlength : ascii.length = 58 := by decide +kernel
  rw [lookupLogged, hlength]
  split_ifs with hgt
  · refine iff_of_true (all_pure _) ?_
    rintro rfl
    exact absurd hgt (by decide)
  · rw [all_access]
    bv_omega

theorem typedLogged_inside_iff :
    (typedLogged beyond keyboard scancode).All (· < ascii.length) ↔ scancode ≠ 0x3A := by
  rw [typedLogged, all_bind, lookupLogged_inside_iff]
  exact and_iff_left fun _ _ => all_pure _

/-! ## The table -/

/-- Only the entry after the last depends on what lies behind the table. -/
theorem lookup_congr (hcaps : scancode ≠ 0x3A) (beyond' : Byte) :
    lookup beyond scancode uppercase = lookup beyond' scancode uppercase := by
  by_cases hgt : scancode > 58
  · rw [lookup_of_gt hgt, lookup_of_gt hgt]
  · have hlength : ascii.length = 58 := by decide +kernel
    have hinside : scancode.toNat < ascii.length := by
      rw [hlength]
      bv_omega
    unfold lookup
    rw [List.getD_eq_getElem _ _ hinside, List.getD_eq_getElem _ _ hinside]

/-- Every entry that is a character is printable. -/
theorem lookup_lower_real (hcaps : scancode ≠ 0x3A) :
    lookup beyond scancode false = 0 ∨ Printable (lookup beyond scancode false) := by
  rw [lookup_congr hcaps 0]
  revert scancode
  decide +kernel

/-- The keys that `handleKeyboard` looks up, and for which shift gives no character. -/
theorem lookup_upper_real_iff (hcaps : scancode ≠ 0x3A) (hleft : scancode ≠ LeftShift)
    (hright : scancode ≠ RightShift) (henter : scancode ≠ Enter)
    (hback : scancode ≠ BackSpace) :
    lookup beyond scancode true = 0 ∨ Printable (lookup beyond scancode true) ↔
      scancode ∉ unshiftable := by
  rw [lookup_congr hcaps 0]
  revert scancode
  decide +kernel

/-! ## One key -/

/-- What the key gives, if anything, is a real character. -/
def GivesReal (scancode : Byte) (given : Option Byte) : Prop :=
  ∀ chr, given = some chr → Printable chr ∨ (chr = lineFeed ∧ scancode = Enter)

theorem givesReal_none : GivesReal scancode none := fun _ hnone => nomatch hnone

theorem givesReal_some {chr : Byte} :
    GivesReal scancode (some chr) ↔ Printable chr ∨ (chr = lineFeed ∧ scancode = Enter) :=
  ⟨fun hreal => hreal chr rfl, fun hreal _ hsame => Option.some.inj hsame ▸ hreal⟩

theorem typed_givesReal_iff (henter : scancode ≠ Enter) :
    GivesReal scancode (keyboard.typed beyond scancode).2 ↔
      lookup beyond scancode (shiftDown keyboard) = 0 ∨
        Printable (lookup beyond scancode (shiftDown keyboard)) := by
  change GivesReal scancode (if lookup beyond scancode (shiftDown keyboard) = 0 then none
    else some (lookup beyond scancode (shiftDown keyboard))) ↔ _
  split_ifs with hzero
  · exact iff_of_true givesReal_none (.inl hzero)
  · rw [givesReal_some, or_iff_left fun hline => henter hline.2, or_iff_right hzero]

theorem typed_of_gt (hgt : scancode > 58) : (keyboard.typed beyond scancode).2 = none := by
  simp [Keyboard.typed, lookup_of_gt hgt]

/-- Caps Lock apart, an un-prefixed key gives a real character, or none, unless it is
shifted and has no shifted character. -/
theorem decode_givesReal_iff (hmod : keyboard.mod = false) (hcaps : scancode ≠ 0x3A) :
    GivesReal scancode (keyboard.decode beyond scancode).2 ↔
      (shiftDown keyboard = true → scancode ∉ unshiftable) := by
  rw [Keyboard.decode, hmod, if_neg Bool.false_ne_true]
  split_ifs with hextended hleft hleft' hright hright' henter hback hspace
  · exact iff_of_true givesReal_none fun _ => hextended ▸ by decide
  · exact iff_of_true givesReal_none fun _ => hleft ▸ by decide
  · rw [typed_of_gt (hleft' ▸ by decide)]
    exact iff_of_true givesReal_none fun _ => hleft' ▸ by decide
  · exact iff_of_true givesReal_none fun _ => hright ▸ by decide
  · rw [typed_of_gt (hright' ▸ by decide)]
    exact iff_of_true givesReal_none fun _ => hright' ▸ by decide
  · exact iff_of_true (givesReal_some.mpr (.inr ⟨rfl, henter⟩)) fun _ => henter ▸ by decide
  · exact iff_of_true givesReal_none fun _ => hback ▸ by decide
  · exact iff_of_true (givesReal_some.mpr (.inl (by decide))) fun _ => hspace ▸ by decide
  · rw [typed_givesReal_iff henter]
    cases shiftDown keyboard with
    | false => exact iff_of_true (lookup_lower_real hcaps) fun hdown => absurd hdown (by decide)
    | true =>
        rw [lookup_upper_real_iff hcaps hleft hright henter hback]
        exact (imp_iff_right rfl).symm

theorem decode_of_mod (hmod : keyboard.mod = true) :
    (keyboard.decode beyond scancode).2 = none := by
  rw [Keyboard.decode, if_pos hmod]

/-- An un-prefixed key reads the table inside unless it is Caps Lock. -/
theorem decodeLogged_inside_iff (hmod : keyboard.mod = false) :
    (decodeLogged beyond keyboard scancode).All (· < ascii.length) ↔ scancode ≠ 0x3A := by
  rw [decodeLogged, hmod, if_neg Bool.false_ne_true]
  split_ifs with hextended hleft hleft' hright hright' henter hback hspace
  · exact iff_of_true (all_pure _) (hextended ▸ by decide)
  · exact iff_of_true (all_pure _) (hleft ▸ by decide)
  · exact typedLogged_inside_iff
  · exact iff_of_true (all_pure _) (hright ▸ by decide)
  · exact typedLogged_inside_iff
  · exact iff_of_true (all_pure _) (henter ▸ by decide)
  · exact iff_of_true (all_pure _) (hback ▸ by decide)
  · exact iff_of_true (all_pure _) (hspace ▸ by decide)
  · exact typedLogged_inside_iff

theorem onlyReal_iff (m : Machine) (event : Event) :
    OnlyReal beyond m event ↔ Typeable m event := by
  cases event with
  | handler => exact Iff.rfl
  | key scancode =>
      cases hmod : m.keyboard.mod with
      | true =>
          refine iff_of_true ⟨fun chr hchr => ?_, ?_⟩ fun hnone => absurd (hmod ▸ hnone) (by decide)
          · rw [Machine.enqueues, decode_of_mod hmod] at hchr
            cases hchr
          · rw [decodeLogged, if_pos hmod]
            exact all_pure _
      | false =>
          have hreal : (∀ chr, m.enqueues beyond (.key scancode) = some chr → Printable chr ∨
              (chr = lineFeed ∧ scancode = Enter ∧ m.keyboard.mod = false)) ↔
              GivesReal scancode (m.keyboard.decode beyond scancode).2 := by
            simp only [hmod, and_true]
            rfl
          rw [OnlyReal, Typeable, hreal, decodeLogged_inside_iff hmod, imp_iff_right hmod, and_comm]
          exact and_congr_right fun hcaps => decode_givesReal_iff hmod hcaps

/-- In every run of the keyboard, with calls of the handler in between, only real
characters are enqueued and the table is read inside exactly when every key is typeable. -/
theorem only_real_iff (beyond : Byte) (m : Machine) (events : List Event) :
    Meets (Machine.step beyond) (OnlyReal beyond) m events ↔
      Meets (Machine.step beyond) Typeable m events :=
  meets_congr (fun _ => True) trivial (fun _ _ _ _ _ => trivial)
    fun m event _ => onlyReal_iff m event

/-- Shift and the key of the apostrophe enqueue the control code 0x16, shift and the `*` of
the keypad a line feed, and Caps Lock reads `ascii[58]`. -/
theorem control_code_typed :
    (∃ m, run (Machine.step 0) eightCells [.key LeftShift, .key 0x28, .key 0x37] = some m ∧
      m.terminal.cells .inBuffer 0 = 0x16 ∧ m.terminal.cells .inBuffer 1 = lineFeed) ∧
      58 ∈ (decodeLogged 0 eightCells.keyboard 0x3A).log ∧
      ¬ Meets (Machine.step 0) (OnlyReal 0) eightCells [.key LeftShift, .key 0x28] := by
  have hcells : (run (Machine.step 0) eightCells [.key LeftShift, .key 0x28, .key 0x37]).map
      (fun m => (m.terminal.cells .inBuffer 0, m.terminal.cells .inBuffer 1)) =
        some (0x16, lineFeed) := by
    decide +kernel
  obtain ⟨m, hm, hfinal⟩ := Option.map_eq_some_iff.mp hcells
  refine ⟨⟨m, hm, congrArg Prod.fst hfinal, congrArg Prod.snd hfinal⟩, by decide, fun hmeets => ?_⟩
  have hshift : Machine.step 0 eightCells (.key LeftShift) =
      some { eightCells with keyboard := ⟨true, false, false⟩ } := rfl
  rcases (hmeets.2 _ hshift).1.1 0x16 (by decide +kernel) with hreal | hline
  · exact absurd hreal (by decide)
  · exact absurd hline.1 (by decide)

end RedX.TypedCharacters
