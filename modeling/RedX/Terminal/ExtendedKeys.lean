import Mathlib.Data.List.Induction
import RedX.Core.PartialRun
import RedX.Terminal.Keyboard

/-!
# Extended keys and the shift keys

A scancode 0xE0 and the code after it, whatever that is, leave the machine as it was.  Of
the other codes only the four of the shift keys change a shift flag, and the last one of a
key decides.
-/

namespace RedX.ExtendedKeys

open RedX.MachineWord
open RedX.PartialRun
open RedX.AccessLog
open RedX.TextTerminal
open RedX.KeyboardInput

/-- The codes without the pairs of 0xE0 and the code that follows it. -/
def withoutPairs : List Byte → List Byte
  | [] => []
  | [code] => [code]
  | first :: second :: codes =>
      if first = 0xE0 then withoutPairs codes else first :: withoutPairs (second :: codes)

/-- The last make or break code of a key. -/
def lastCode (make : Byte) (codes : List Byte) : Option Byte :=
  (codes.filter fun code => code = make ∨ code = make + 0x80).getLast?

/-- The scancodes one after the other. -/
def process (beyond : Byte) (m : Machine) (codes : List Byte) : Option Machine :=
  run (Machine.step beyond) m (codes.map .key)

variable {beyond code : Byte} {m m' : Machine} {keyboard : Keyboard} {codes : List Byte}

@[simp]
theorem process_nil : process beyond m [] = some m := rfl

@[simp]
theorem process_cons : process beyond m (code :: codes) =
    (m.step beyond (.key code)).bind fun next => process beyond next codes := rfl

/-! ## The flags -/

/-- A key sets the keyboard as `decode` does. -/
theorem step_keyboard (hstep : m.step beyond (.key code) = some m') :
    m'.keyboard = (m.keyboard.decode beyond code).1 := by
  simp only [Machine.step, Machine.handleKeyboard] at hstep
  cases hdecode : (m.keyboard.decode beyond code).2 with
  | none =>
      rw [hdecode] at hstep
      exact Option.some.inj hstep ▸ rfl
  | some chr =>
      rw [hdecode] at hstep
      simp only [result_bind, Option.bind_eq_some_iff] at hstep
      obtain ⟨terminal, -, hmachine⟩ := hstep
      exact Option.some.inj hmachine ▸ rfl

/-- What a code does to the flag of the key with the code `make`. -/
def pressed (make : Byte) (down : Bool) (code : Byte) : Bool :=
  if code = make then true else if code = make + 0x80 then false else down

/-- Without a prefix before it, a code concerns each part of the keyboard by itself. -/
theorem decode_keyboard (hmod : keyboard.mod = false) (code : Byte) :
    (keyboard.decode beyond code).1 =
      { leftShiftDown := pressed LeftShift keyboard.leftShiftDown code
        rightShiftDown := pressed RightShift keyboard.rightShiftDown code
        mod := code = 0xE0 } := by
  obtain ⟨left, right, mod⟩ := keyboard
  obtain rfl : mod = false := hmod
  by_cases hextended : code = 0xE0
  · subst hextended
    rfl
  by_cases hleft : code = LeftShift
  · subst hleft
    rfl
  by_cases hleft' : code = LeftShift + 0x80
  · subst hleft'
    rfl
  by_cases hright : code = RightShift
  · subst hright
    rfl
  by_cases hright' : code = RightShift + 0x80
  · subst hright'
    rfl
  simp only [Keyboard.decode, pressed, hextended, hleft, hleft', hright, hright',
    Bool.false_eq_true, ↓reduceIte, decide_false]
  split_ifs <;> rfl

/-- The last code of a key decides its flag. -/
theorem foldl_pressed (make : Byte) (down : Bool) (codes : List Byte) :
    codes.foldl (pressed make) down = (lastCode make codes).elim down (· = make) := by
  induction codes using List.reverseRecOn with
  | nil => rfl
  | append_singleton codes code ih =>
      rw [List.foldl_append, List.foldl_cons, List.foldl_nil, ih, lastCode, lastCode,
        List.filter_append, pressed]
      by_cases hmake : code = make
      · simp [hmake]
      · by_cases hbreak : code = make + 0x80
        · simp [hbreak]
        · have hother : ([code].filter fun code => code = make ∨ code = make + 0x80) = [] :=
            List.filter_cons_of_neg (by simpa using ⟨hmake, hbreak⟩)
          rw [hother, List.append_nil, if_neg hmake, if_neg hbreak]

/-! ## The pairs -/

/-- A pair of 0xE0 and the code after it changes nothing. -/
theorem process_pair (hmod : m.keyboard.mod = false) (code : Byte) (codes : List Byte) :
    process beyond m (0xE0 :: code :: codes) = process beyond m codes := by
  obtain ⟨terminal, left, right, mod⟩ := m
  subst hmod
  rfl

/-- Codes of which only the last can be a prefix. -/
def PairFree (codes : List Byte) : Prop := 0xE0 ∉ codes.dropLast

theorem pairFree_withoutPairs (codes : List Byte) : PairFree (withoutPairs codes) := by
  fun_induction withoutPairs codes with
  | case1 => exact List.not_mem_nil
  | case2 code => exact List.not_mem_nil
  | case3 second codes ih => exact ih
  | case4 first second codes hextended ih =>
      unfold PairFree at ih ⊢
      cases hrest : withoutPairs (second :: codes) with
      | nil => exact List.not_mem_nil
      | cons next rest =>
          rw [hrest] at ih
          rw [List.dropLast_cons_cons, List.mem_cons, not_or]
          exact ⟨fun hsame => hextended hsame.symm, ih⟩

theorem step_mod (hmod : m.keyboard.mod = false) (hcode : code ≠ 0xE0)
    (hstep : m.step beyond (.key code) = some m') : m'.keyboard.mod = false := by
  rw [step_keyboard hstep, decode_keyboard hmod]
  exact decide_eq_false hcode

theorem process_withoutPairs (hmod : m.keyboard.mod = false) (codes : List Byte) :
    process beyond m codes = process beyond m (withoutPairs codes) := by
  fun_induction withoutPairs codes generalizing m with
  | case1 => rfl
  | case2 code => rfl
  | case3 second codes ih =>
      rw [process_pair hmod]
      exact ih hmod
  | case4 first second codes hextended ih =>
      rw [process_cons, process_cons]
      cases hstep : m.step beyond (.key first) with
      | none => rfl
      | some next => exact ih (step_mod hmod hextended hstep)

/-- The flags after codes without pairs. -/
theorem process_flags (hfree : PairFree codes) (hmod : m.keyboard.mod = false)
    (hprocess : process beyond m codes = some m') :
    m'.keyboard.leftShiftDown = codes.foldl (pressed LeftShift) m.keyboard.leftShiftDown ∧
      m'.keyboard.rightShiftDown = codes.foldl (pressed RightShift) m.keyboard.rightShiftDown := by
  induction codes generalizing m with
  | nil =>
      obtain rfl := Option.some.inj hprocess
      exact ⟨rfl, rfl⟩
  | cons code codes ih =>
      rw [process_cons, Option.bind_eq_some_iff] at hprocess
      obtain ⟨next, hstep, hrest⟩ := hprocess
      have hnext := (step_keyboard hstep).trans (decode_keyboard hmod code)
      cases codes with
      | nil =>
          obtain rfl := Option.some.inj hrest
          rw [hnext]
          exact ⟨rfl, rfl⟩
      | cons second codes =>
          rw [PairFree, List.dropLast_cons_cons, List.mem_cons, not_or] at hfree
          have hflags := ih hfree.2 (step_mod hmod (Ne.symm hfree.1) hstep) hrest
          rwa [hnext] at hflags

theorem process_returns (hsize : m.terminal.bufferSize.toNat ≤ 2 ^ 64 - 2 ^ 31)
    (codes : List Byte) : (process beyond m codes).isSome := by
  induction codes generalizing m with
  | nil => rfl
  | cons code codes ih =>
      obtain ⟨next, hstep⟩ : ∃ next, m.step beyond (.key code) = some next := by
        simp only [Machine.step, Machine.handleKeyboard]
        split
        · exact ⟨_, rfl⟩
        · exact returns_bind (returns_bind (findFree_returns hsize) fun i _ =>
            returns_access _ _) fun terminal _ => returns_pure _
      rw [process_cons, hstep, Option.bind_some]
      apply ih
      have heffect := step_key hstep
      split at heffect
      · exact heffect ▸ hsize
      · obtain ⟨i, -, hput⟩ := heffect
        rw [hput]
        exact hsize

/-- From released keys and no prefix, the scancodes do what they do without the extended
keys, and a shift key is down at the end exactly when its last un-prefixed code was the make
code. -/
theorem extended_keys_transparent (beyond : Byte) (terminal : Terminal) (codes : List Byte) :
    process beyond ⟨terminal, ⟨false, false, false⟩⟩ codes =
        process beyond ⟨terminal, ⟨false, false, false⟩⟩ (withoutPairs codes) ∧
      (terminal.bufferSize.toNat ≤ 2 ^ 64 - 2 ^ 31 →
        (process beyond ⟨terminal, ⟨false, false, false⟩⟩ codes).isSome) ∧
      ∀ final, process beyond ⟨terminal, ⟨false, false, false⟩⟩ codes = some final →
        (final.keyboard.leftShiftDown = true ↔
          lastCode LeftShift (withoutPairs codes) = some LeftShift) ∧
        (final.keyboard.rightShiftDown = true ↔
          lastCode RightShift (withoutPairs codes) = some RightShift) := by
  have hpairs : process beyond ⟨terminal, ⟨false, false, false⟩⟩ codes =
      process beyond ⟨terminal, ⟨false, false, false⟩⟩ (withoutPairs codes) :=
    process_withoutPairs rfl codes
  refine ⟨hpairs, fun hsize => process_returns hsize codes, fun final hfinal => ?_⟩
  obtain ⟨hleft, hright⟩ := process_flags (pairFree_withoutPairs codes) rfl (hpairs ▸ hfinal)
  have hlast : ∀ make : Byte, (withoutPairs codes).foldl (pressed make) false = true ↔
      lastCode make (withoutPairs codes) = some make := by
    intro make
    rw [foldl_pressed]
    cases lastCode make (withoutPairs codes) <;> simp
  rw [hleft, hright]
  exact ⟨hlast LeftShift, hlast RightShift⟩

/-- Shift, `a`, a prefixed release of shift and `b`: shift is still down. -/
example : (process 0 eightCells [LeftShift, 0x1E, 0xE0, LeftShift + 0x80, 0x30]).map
    (fun m => (m.keyboard.leftShiftDown, m.terminal.cells .inBuffer 0,
      m.terminal.cells .inBuffer 1)) = some (true, 0x41, 0x42) := by
  decide +kernel

end RedX.ExtendedKeys
