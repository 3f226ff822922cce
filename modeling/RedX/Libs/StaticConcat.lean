import RedX.Core.MachineWord
import RedX.Core.PartialRun
import RedX.Core.TerminatedString

/-!
# `cat`

`cat` of `libs/string.cpp` builds its result in one static buffer, which it clears up to the
first zero before it reads its arguments.  An argument may point into that buffer.
-/

namespace RedX.StaticConcat

open RedX.MachineWord
open RedX.PartialRun
open RedX.TerminatedString

/-- Where an argument points: to characters outside of the buffer, or into the result of an
earlier call. -/
inductive Source
  | elsewhere (chars : ℕ → Byte)
  | result (position : Fin 128)

/-- The character at an offset from where the argument points. -/
def Source.read (catOutput : ℤ → Byte) : Source → ℕ → Byte
  | .elsewhere chars, offset => chars offset
  | .result position, offset => catOutput (position.val + offset : ℕ)

/-- As many passes as there are addresses. -/
def passes : ℕ := 2 ^ 64

/-- `for (int i = 0; catOutput[i] != 0; i++) catOutput[i] = 0;` -/
def clearLoop : ℕ → Word32 → (ℤ → Byte) → Option (ℤ → Byte)
  | 0, _, _ => none
  | fuel + 1, i, catOutput =>
      if catOutput i.toInt ≠ 0 then
        clearLoop fuel (i + 1) (Function.update catOutput i.toInt 0)
      else some catOutput

/-- `for (; *chr != 0; chr++) { catOutput[index] = *chr; index++; }`; `chr` is an offset in
the argument. -/
def copyLoop (source : Source) : ℕ → Byte → ℕ → (ℤ → Byte) → Option (Byte × (ℤ → Byte))
  | 0, _, _, _ => none
  | fuel + 1, index, chr, catOutput =>
      if source.read catOutput chr ≠ 0 then
        copyLoop source fuel (index + 1) (chr + 1)
          (Function.update catOutput index.toNat (source.read catOutput chr))
      else some (index, catOutput)

/-- `cat`: what the buffer holds when it returns.  The result points to the start of it. -/
def cat (so st : Source) (catOutput : ℤ → Byte) : Option (ℤ → Byte) := do
  let catOutput ← clearLoop passes 0 catOutput
  let (index, catOutput) ← copyLoop so passes 0 0 catOutput
  let (_, catOutput) ← copyLoop st passes index 0 catOutput
  return catOutput

/-- The arguments of a call. -/
structure Call where
  so : Source
  st : Source

def Call.step (catOutput : ℤ → Byte) (call : Call) : Option (ℤ → Byte) :=
  cat call.so call.st catOutput

/-- The two arguments are strings whose total length is at most 127. -/
def Short (catOutput : ℤ → Byte) (call : Call) : Prop :=
  ∃ so st, IsString 0 (call.so.read catOutput) so ∧ IsString 0 (call.st.read catOutput) st ∧
    so.length + st.length ≤ 127

/-- The call returns the two strings, as they stood before it, one after the other. -/
def Concatenates (catOutput : ℤ → Byte) (call : Call) : Prop :=
  ∀ so st, IsString 0 (call.so.read catOutput) so → IsString 0 (call.st.read catOutput) st →
    ∃ after, cat call.so call.st catOutput = some after ∧
      IsString 0 (Source.read after (.result 0)) (so ++ st)

/-- An argument in the buffer is the empty string. -/
def Source.Blank (catOutput : ℤ → Byte) : Source → Prop
  | .elsewhere _ => True
  | .result position => catOutput position.val = 0

/-- An argument in the buffer does not lie where a string of this array is copied to. -/
def Source.Behind (chars : ℕ → Byte) : Source → Prop
  | .elsewhere _ => True
  | .result position => ∃ length ≤ position.val, chars length = 0

/-- Both arguments are outside of the buffer or empty, and the second one is not overwritten
by the first. -/
def Separate (catOutput : ℤ → Byte) (call : Call) : Prop :=
  call.so.Blank catOutput ∧ call.st.Blank catOutput ∧ call.st.Behind (call.so.read catOutput)

variable {catOutput cells after : ℤ → Byte} {source : Source} {str rest : List Byte}
  {call : Call}

/-! ## The buffer between two calls -/

/-- The array of 128 cells has a string in it and zeros behind. -/
structure Keeps (catOutput : ℤ → Byte) (str : List Byte) : Prop where
  cell : ∀ position < 128, catOutput (position : ℕ) = str.getD position 0
  length : str.length ≤ 127
  proper : ∀ chr ∈ str, chr ≠ 0

theorem Keeps.isString (hkeeps : Keeps catOutput str) :
    IsString 0 (Source.read catOutput (.result 0)) str where
  cell position hposition := by
    have hlength := hkeeps.length
    rw [Source.read, Fin.val_zero, Nat.zero_add, hkeeps.cell position (by omega)]
  proper := hkeeps.proper

theorem Keeps.cell_eq_zero_iff (hkeeps : Keeps catOutput str) {position : ℕ}
    (hposition : position < 128) : catOutput position = 0 ↔ str.length ≤ position := by
  rw [hkeeps.cell position hposition]
  constructor
  · intro hzero
    by_contra hinside
    rw [not_le] at hinside
    rw [List.getD_eq_getElem _ _ hinside] at hzero
    exact hkeeps.proper _ (List.getElem_mem hinside) hzero
  · exact List.getD_eq_default _ _

theorem toInt_ofNat {position : ℕ} (hposition : position < 128) :
    (BitVec.ofNat 32 position).toInt = position := by
  rw [toInt_of_lt (by rw [BitVec.toNat_ofNat]; omega), BitVec.toNat_ofNat]
  congr 1
  omega

/-- The cells before `done` are cleared, the others as they were. -/
theorem clearLoop_clears (hlength : str.length ≤ 127) (hproper : ∀ chr ∈ str, chr ≠ 0)
    {left done fuel : ℕ} (hleft : done + left = str.length) (hfuel : left < fuel)
    (hbefore : ∀ position < done, cells (position : ℕ) = 0)
    (hbehind : ∀ position < 128, done ≤ position → cells (position : ℕ) = str.getD position 0) :
    ∃ cleared, clearLoop fuel (BitVec.ofNat 32 done) cells = some cleared ∧
      Keeps cleared [] := by
  induction left generalizing done fuel cells with
  | zero =>
      obtain ⟨fuel, rfl⟩ : ∃ less, fuel = less + 1 := ⟨fuel - 1, by omega⟩
      have hend : ∀ position < 128, cells (position : ℕ) = 0 := by
        intro position hposition
        by_cases hearlier : position < done
        · exact hbefore position hearlier
        · rw [hbehind position hposition (by omega), List.getD_eq_default _ _ (by omega)]
      refine ⟨cells, ?_, hend, Nat.zero_le _, fun _ hnone => absurd hnone List.not_mem_nil⟩
      rw [clearLoop, toInt_ofNat (by omega), if_neg (not_not_intro (hend done (by omega)))]
  | succ left ih =>
      obtain ⟨fuel, rfl⟩ : ∃ less, fuel = less + 1 := ⟨fuel - 1, by omega⟩
      have hcell : cells (done : ℕ) ≠ 0 := by
        rw [hbehind done (by omega) le_rfl, List.getD_eq_getElem _ _ (by omega)]
        exact hproper _ (List.getElem_mem _)
      rw [clearLoop, toInt_ofNat (by omega), if_pos hcell,
        show (1 : Word32) = BitVec.ofNat 32 1 from rfl, ← BitVec.ofNat_add]
      apply ih (by omega) (by omega)
      · intro position hposition
        by_cases hlast : position = done
        · rw [hlast, Function.update_self]
        · rw [Function.update_of_ne (by omega)]
          exact hbefore position (by omega)
      · intro position hposition hlater
        rw [Function.update_of_ne (by omega)]
        exact hbehind position hposition (by omega)

theorem Keeps.clear (hkeeps : Keeps catOutput str) :
    ∃ cleared, clearLoop passes 0 catOutput = some cleared ∧ Keeps cleared [] := by
  have hlength := hkeeps.length
  exact clearLoop_clears hkeeps.length hkeeps.proper (Nat.zero_add _)
    (show _ < 2 ^ 64 by omega) (fun _ hnone => absurd hnone (Nat.not_lt_zero _))
    fun position hposition _ => hkeeps.cell position hposition

/-! ## Copying an argument -/

/-- Nothing is copied of an argument that is empty. -/
theorem copyLoop_empty {fuel chr : ℕ} {index : Byte} (hend : source.read cells chr = 0)
    (hfuel : 0 < fuel) : copyLoop source fuel index chr cells = some (index, cells) := by
  obtain ⟨fuel, rfl⟩ : ∃ less, fuel = less + 1 := ⟨fuel - 1, by omega⟩
  rw [copyLoop, if_neg (not_not_intro hend)]

theorem Keeps.snoc {last : Byte} (hkeeps : Keeps cells str) (hroom : str.length < 127)
    (hlast : last ≠ 0) : Keeps (Function.update cells str.length last) (str ++ [last]) where
  cell position hposition := by
    rcases Nat.lt_trichotomy position str.length with hbefore | rfl | hbehind
    · rw [Function.update_of_ne (by omega), hkeeps.cell position hposition,
        List.getD_append _ _ _ _ hbefore]
    · rw [Function.update_self, List.getD_append_right _ _ _ _ le_rfl, Nat.sub_self]
      rfl
    · rw [Function.update_of_ne (by omega), hkeeps.cell position hposition,
        List.getD_eq_default _ _ hbehind.le, List.getD_eq_default]
      rw [List.length_append, List.length_singleton]
      exact hbehind
  length := by
    rw [List.length_append, List.length_singleton]
    exact hroom
  proper chr hchr := by
    rcases List.mem_append.mp hchr with hearlier | hnew
    · exact hkeeps.proper chr hearlier
    · rwa [List.mem_singleton.mp hnew]

/-- An argument outside of the buffer is copied behind what is there. -/
theorem copyLoop_elsewhere {chars : ℕ → Byte} {chr fuel : ℕ} (hkeeps : Keeps cells str)
    (hrest : IsString 0 (fun position => chars (chr + position)) rest)
    (hroom : str.length + rest.length ≤ 127) (hfuel : rest.length < fuel) :
    ∃ after, copyLoop (.elsewhere chars) fuel (BitVec.ofNat 8 str.length) chr cells =
        some (BitVec.ofNat 8 (str ++ rest).length, after) ∧ Keeps after (str ++ rest) := by
  induction rest generalizing str chr fuel cells with
  | nil =>
      obtain ⟨fuel, rfl⟩ : ∃ less, fuel = less + 1 := ⟨fuel - 1, by omega⟩
      have hend : chars chr = 0 := hrest.ends
      rw [List.append_nil]
      exact ⟨cells, if_neg (not_not_intro hend), hkeeps⟩
  | cons first rest ih =>
      rw [List.length_cons] at hroom hfuel
      obtain ⟨fuel, rfl⟩ : ∃ less, fuel = less + 1 := ⟨fuel - 1, by omega⟩
      have hproper : first ≠ 0 := hrest.proper first List.mem_cons_self
      have hfirst : chars chr = first := hrest.cell 0 (Nat.zero_le _)
      have hlater : IsString 0 (fun position => chars (chr + 1 + position)) rest := by
        refine ⟨fun position hposition => ?_, fun later hlater =>
          hrest.proper later (List.mem_cons_of_mem _ hlater)⟩
        rw [Nat.add_assoc, Nat.add_comm 1]
        exact hrest.cell (position + 1) (Nat.succ_le_succ hposition)
      have hplace : (BitVec.ofNat 8 str.length).toNat = str.length := by
        rw [BitVec.toNat_ofNat]
        omega
      have hnext : BitVec.ofNat 8 str.length + 1 = BitVec.ofNat 8 (str ++ [first]).length := by
        rw [List.length_append, List.length_singleton, BitVec.ofNat_add]
        rfl
      rw [copyLoop, Source.read, hfirst, if_pos hproper, hplace, hnext,
        List.append_cons str first rest]
      have hroom' : (str ++ [first]).length + rest.length ≤ 127 := by
        rw [List.length_append, List.length_singleton]
        omega
      refine ih (hkeeps.snoc (by omega) hproper) hlater hroom' ?_
      omega

theorem Keeps.copy {chars : ℕ → Byte} (hkeeps : Keeps cells str)
    (hargument : IsString 0 (Source.read catOutput (.elsewhere chars)) rest)
    (hroom : str.length + rest.length ≤ 127) :
    ∃ after, copyLoop (.elsewhere chars) passes (BitVec.ofNat 8 str.length) 0 cells =
        some (BitVec.ofNat 8 (str ++ rest).length, after) ∧ Keeps after (str ++ rest) := by
  have hchars : IsString 0 (fun position => chars (0 + position)) rest := by
    simp only [Nat.zero_add]
    exact hargument
  exact copyLoop_elsewhere hkeeps hchars hroom (show _ < 2 ^ 64 by omega)

/-! ## An argument that is overwritten -/

/-- No zero among the first cells of a buffer that an 8-bit index can reach. -/
def Full (count : ℕ) (cells : ℤ → Byte) : Prop :=
  ∀ position < count, position < 256 → cells (position : ℕ) ≠ 0

theorem Full.put {count : ℕ} {last : Byte} (hfull : Full count cells) (hlast : last ≠ 0) :
    Full (count + 1) (Function.update cells (BitVec.ofNat 8 count).toNat last) := by
  intro position hposition hreach
  by_cases hplace : position = (BitVec.ofNat 8 count).toNat
  · rwa [hplace, Function.update_self]
  · rw [Function.update_of_ne (by omega)]
    refine hfull position ?_ hreach
    rw [BitVec.toNat_ofNat] at hplace
    omega

/-- A copy that has started to read what it has written does not find an end in the cells
that it writes. -/
theorem copyLoop_runs_past {position : Fin 128} {fuel count chr : ℕ} {index : Byte}
    (hfull : Full count cells) (hbehind : position.val + chr < count)
    (hcopy : copyLoop (.result position) fuel (BitVec.ofNat 8 count) chr cells =
      some (index, after)) : Full 256 after := by
  induction fuel generalizing cells count chr with
  | zero => cases hcopy
  | succ fuel ih =>
      rw [copyLoop, Source.read] at hcopy
      split_ifs at hcopy with hend
      · have hlater : position.val + (chr + 1) < count + 1 := by omega
        refine ih (hfull.put hend) hlater ?_
        rwa [BitVec.ofNat_add]
      · rw [not_not] at hend
        obtain ⟨-, rfl⟩ := Prod.mk.inj (Option.some.inj hcopy)
        intro place hplace hreach
        have hwrapped : 256 ≤ position.val + chr := by
          by_contra hinside
          exact hfull _ hbehind (not_le.mp hinside) hend
        exact hfull place (by omega) hreach

/-- A string that starts to be copied onto itself is not a short string afterwards. -/
theorem Keeps.not_isString_of_overlap {position : Fin 128} {index : Byte}
    (hkeeps : Keeps cells rest) (hinside : position.val < rest.length)
    (hcopy : copyLoop (.result position) passes (BitVec.ofNat 8 rest.length) 0 cells =
      some (index, after)) (hlength : str.length < 256) :
    ¬ IsString 0 (Source.read after (.result 0)) str := by
  intro hstr
  have hfull : Full rest.length cells := fun place hplace _ => by
    have := hkeeps.length
    rw [Ne, hkeeps.cell_eq_zero_iff (by omega)]
    omega
  have hends := hstr.ends
  rw [Source.read, Fin.val_zero, Nat.zero_add] at hends
  exact copyLoop_runs_past hfull (by omega) hcopy str.length hlength hlength hends

/-! ## One call -/

theorem blank_result_iff {position : Fin 128}
    (hstr : IsString 0 (Source.read catOutput (.result position)) str) :
    Source.Blank catOutput (.result position) ↔ str = [] := by
  constructor
  · intro hzero
    by_contra hlong
    exact hstr.cell_ne (List.length_pos_iff.mpr hlong) hzero
  · rintro rfl
    exact hstr.ends

/-- What the first argument leaves in the buffer that has been cleared. -/
theorem copy_first (hcleared : Keeps cells [])
    (hstr : IsString 0 (source.read catOutput) str) (hlength : str.length ≤ 127) :
    ∃ copied after, copyLoop source passes 0 0 cells =
        some (BitVec.ofNat 8 copied.length, after) ∧ Keeps after copied ∧
      copied.length ≤ str.length ∧ (source.Blank catOutput ↔ copied = str) := by
  cases source with
  | elsewhere chars =>
      obtain ⟨after, hcopy, hkeeps⟩ := hcleared.copy hstr (by rwa [List.length_nil, Nat.zero_add])
      exact ⟨str, after, hcopy, hkeeps, le_rfl, iff_of_true trivial rfl⟩
  | result position =>
      have hend : Source.read cells (.result position) 0 = 0 :=
        (hcleared.cell_eq_zero_iff position.isLt).mpr (Nat.zero_le _)
      refine ⟨[], cells, copyLoop_empty hend (by decide), hcleared, Nat.zero_le _, ?_⟩
      rw [blank_result_iff hstr, eq_comm]

/-- A call up to the copy of its second argument. -/
theorem cat_eq (hkeeps : Keeps catOutput rest)
    (hstr : IsString 0 (call.so.read catOutput) str) (hlength : str.length ≤ 127) :
    ∃ copied cells, cat call.so call.st catOutput =
        (copyLoop call.st passes (BitVec.ofNat 8 copied.length) 0 cells).map Prod.snd ∧
      Keeps cells copied ∧ copied.length ≤ str.length ∧
      (call.so.Blank catOutput ↔ copied = str) := by
  obtain ⟨cleared, hclear, hcleared⟩ := hkeeps.clear
  obtain ⟨copied, cells, hcopy, hcopied⟩ := copy_first hcleared hstr hlength
  refine ⟨copied, cells, ?_, hcopied⟩
  rw [cat, hclear, Option.bind_eq_bind, Option.bind_some, hcopy, Option.bind_eq_bind,
    Option.bind_some]
  dsimp only
  cases copyLoop call.st passes (BitVec.ofNat 8 copied.length) 0 cells <;> rfl

variable {st : List Byte}

/-- Separate arguments are concatenated. -/
theorem cat_of_separate (hkeeps : Keeps catOutput rest)
    (hso : IsString 0 (call.so.read catOutput) str) (hst : IsString 0 (call.st.read catOutput) st)
    (hlength : str.length + st.length ≤ 127) (hseparate : Separate catOutput call) :
    ∃ after, cat call.so call.st catOutput = some after ∧ Keeps after (str ++ st) := by
  obtain ⟨hblank, hempty, hbehind⟩ := hseparate
  obtain ⟨copied, cells, hcat, hcopied, -, hcopy⟩ := cat_eq hkeeps hso (by omega)
  obtain rfl := hcopy.mp hblank
  rw [hcat]
  cases hsource : call.st with
  | elsewhere chars =>
      rw [hsource] at hst
      obtain ⟨after, hafter, hkept⟩ := hcopied.copy hst hlength
      exact ⟨after, by rw [hafter]; rfl, hkept⟩
  | result position =>
      rw [hsource] at hst hempty hbehind
      obtain ⟨length, hle, hend⟩ := hbehind
      have hbefore : copied.length ≤ length := by
        by_contra hinside
        exact hso.cell_ne (not_le.mp hinside) hend
      have hread : Source.read cells (.result position) 0 = 0 :=
        (hcopied.cell_eq_zero_iff position.isLt).mpr (hbefore.trans hle)
      rw [(blank_result_iff hst).mp hempty, List.append_nil, copyLoop_empty hread (by decide)]
      exact ⟨cells, rfl, hcopied⟩

theorem separate_of_concatenates (hkeeps : Keeps catOutput rest)
    (hso : IsString 0 (call.so.read catOutput) str) (hst : IsString 0 (call.st.read catOutput) st)
    (hlength : str.length + st.length ≤ 127) (hconcatenates : Concatenates catOutput call) :
    Separate catOutput call := by
  obtain ⟨after, hafter, hresult⟩ := hconcatenates str st hso hst
  obtain ⟨copied, cells, hcat, hcopied, hle, hcopy⟩ := cat_eq hkeeps hso (by omega)
  rw [hcat] at hafter
  rw [Separate, hcopy]
  cases hsource : call.st with
  | elsewhere chars =>
      rw [hsource] at hst hafter
      obtain ⟨after', hafter', hkept⟩ := hcopied.copy hst (by omega)
      rw [hafter'] at hafter
      obtain rfl : after' = after := Option.some.inj hafter
      exact ⟨List.append_cancel_right (hkept.isString.unique hresult), trivial, trivial⟩
  | result position =>
      rw [hsource] at hst hafter
      by_cases hinside : position.val < copied.length
      · -- the copy reads what it writes
        obtain ⟨⟨index, _⟩, hrun, rfl⟩ := Option.map_eq_some_iff.mp hafter
        have hlong : (str ++ st).length < 256 := by
          rw [List.length_append]
          omega
        exact absurd hresult (hcopied.not_isString_of_overlap hinside hrun hlong)
      · rw [not_lt] at hinside
        have hread : Source.read cells (.result position) 0 = 0 :=
          (hcopied.cell_eq_zero_iff position.isLt).mpr hinside
        rw [copyLoop_empty hread (by decide)] at hafter
        obtain rfl : cells = after := Option.some.inj hafter
        have hboth : copied = str ++ st := hcopied.isString.unique hresult
        obtain rfl : st = [] := by
          rw [hboth, List.length_append] at hle
          exact List.length_eq_zero_iff.mp (by omega)
        rw [List.append_nil] at hboth
        refine ⟨hboth, (blank_result_iff hst).mpr rfl, str.length, hboth ▸ hinside, hso.ends⟩

/-! ## Runs of calls -/

/-- In every run of calls with short strings that starts with a buffer of zeros, every call
returns the concatenation of its arguments exactly if they are separate in every call. -/
theorem run_concatenates_iff {calls : List Call}
    (hstart : ∀ position < 128, catOutput (position : ℕ) = 0)
    (hshort : Meets Call.step Short catOutput calls) :
    Meets Call.step Concatenates catOutput calls ↔ Meets Call.step Separate catOutput calls := by
  refine meets_iff (fun catOutput => ∃ str, Keeps catOutput str) ?_ ?_ ?_ hshort
  · exact ⟨[], hstart, Nat.zero_le _, fun _ hnone => absurd hnone List.not_mem_nil⟩
  · rintro catOutput call ⟨rest, hkeeps⟩ ⟨str, st, hso, hst, hlength⟩
    refine ⟨separate_of_concatenates hkeeps hso hst hlength, fun hseparate str' st' hso' hst' => ?_⟩
    obtain ⟨after, hafter, hkept⟩ := cat_of_separate hkeeps hso hst hlength hseparate
    rw [hso'.unique hso, hst'.unique hst]
    exact ⟨after, hafter, hkept.isString⟩
  · rintro catOutput call next ⟨rest, hkeeps⟩ ⟨str, st, hso, hst, hlength⟩ hseparate hnext
    obtain ⟨after, hafter, hkept⟩ := cat_of_separate hkeeps hso hst hlength hseparate
    exact ⟨str ++ st, Option.some.inj (hafter.symm.trans hnext) ▸ hkept⟩

/-- A string literal as an argument. -/
def constant (str : String) : Source := .elsewhere fun position => (literal str).getD position 0

theorem isString_constant (str : String) (hproper : ∀ chr ∈ literal str, chr ≠ 0) :
    IsString 0 ((constant str).read catOutput) (literal str) :=
  ⟨fun _ _ => rfl, hproper⟩

theorem short_constant {so st : String} (hso : ∀ chr ∈ literal so, chr ≠ 0)
    (hst : ∀ chr ∈ literal st, chr ≠ 0)
    (hlength : (literal so).length + (literal st).length ≤ 127) :
    Short catOutput ⟨constant so, constant st⟩ :=
  ⟨literal so, literal st, isString_constant so hso, isString_constant st hst, hlength⟩

/-- Two calls with literals, the second shorter than the first. -/
theorem run_concatenates_literals :
    Meets Call.step Concatenates (fun _ => 0)
      [⟨constant "Red", constant "X"⟩, ⟨constant "O", constant "S"⟩] := by
  refine (run_concatenates_iff (fun _ _ => rfl) ?_).mpr ?_
  · exact ⟨short_constant (by decide) (by decide) (by decide), fun next _ =>
      ⟨short_constant (by decide) (by decide) (by decide), fun _ _ => trivial⟩⟩
  · exact ⟨⟨trivial, trivial, trivial⟩, fun next _ =>
      ⟨⟨trivial, trivial, trivial⟩, fun _ _ => trivial⟩⟩

def inner : Call := ⟨constant "a", constant "b"⟩

def outer : Call := ⟨.result 0, constant "c"⟩

/-- `cat(cat("a", "b"), "c")` -/
def nested : List Call := [inner, outer]

/-- The inner result is cleared before it is read, so `"c"` is returned. -/
theorem cat_loses_result :
    ((run Call.step (fun _ => 0) nested).map fun catOutput => (catOutput 0, catOutput 1)) =
        some (0x63, 0) ∧
      Meets Call.step Short (fun _ => 0) nested ∧
      ¬ Meets Call.step Concatenates (fun _ => 0) nested := by
  have hzero : Keeps (fun _ => 0) [] :=
    ⟨fun _ _ => rfl, Nat.zero_le _, fun _ hnone => absurd hnone List.not_mem_nil⟩
  have ha : IsString 0 (inner.so.read fun _ => 0) (literal "a") := isString_constant _ (by decide)
  have hb : IsString 0 (inner.st.read fun _ => 0) (literal "b") := isString_constant _ (by decide)
  obtain ⟨middle, hinner, hkeeps⟩ :=
    cat_of_separate hzero ha hb (by decide) ⟨trivial, trivial, trivial⟩
  have hc : IsString 0 (outer.st.read middle) (literal "c") := isString_constant _ (by decide)
  refine ⟨by decide +kernel, ⟨short_constant (by decide) (by decide) (by decide), ?_⟩, ?_⟩
  · intro next hnext
    obtain rfl : middle = next := Option.some.inj (hinner.symm.trans hnext)
    exact ⟨⟨_, _, hkeeps.isString, hc, by decide⟩, fun _ _ => trivial⟩
  · rintro ⟨-, hrest⟩
    have hseparate : Separate middle outer :=
      separate_of_concatenates hkeeps hkeeps.isString hc (by decide) (hrest middle hinner).1
    have hblank : middle (0 : ℕ) = 0 := hseparate.1
    rw [hkeeps.cell_eq_zero_iff (by decide)] at hblank
    exact absurd hblank (by decide)

end RedX.StaticConcat
