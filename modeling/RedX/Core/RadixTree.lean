import Mathlib.Algebra.BigOperators.Intervals
import Mathlib.Data.Nat.ModEq
import Mathlib.Tactic.Common

/-!
# Radix trees

A radix tree with `b` children for each node, whose nodes live in numbered
tables of `b` cells and whose leaves are values.  A node is a level and a prefix
of a key, so the nodes on the way to a key are its quotients by powers of `b`.

`Placement` says which nodes exist and in which table each one lives, `grow`
adds a node below an existing one, and `Layout` says that an array of cells
holds the tree: every cell of every table encodes its child.
-/

namespace RedX.RadixTree

/-! ## Keys -/

section Keys

variable (b height : ℕ)

/-- The node at `level` on the way to `key`; tables are at levels `0` to `height` and
the leaves at level `height + 1`. -/
def prefixAt (level key : ℕ) : ℕ := key / b ^ (height + 1 - level)

/-- The index used in that node. -/
def digitAt (level key : ℕ) : ℕ := key / b ^ (height - level) % b

variable {b height} {level key : ℕ}

theorem prefixAt_succ (hlevel : level ≤ height) :
    prefixAt b height (level + 1) key =
      b * prefixAt b height level key + digitAt b height level key := by
  have hexponent : height + 1 - level = height - level + 1 := by omega
  have hlower : height + 1 - (level + 1) = height - level := by omega
  rw [prefixAt, prefixAt, digitAt, hexponent, hlower, pow_succ, ← Nat.div_div_eq_div_mul]
  exact (Nat.div_add_mod _ b).symm

theorem digitAt_lt (hb : 0 < b) : digitAt b height level key < b := Nat.mod_lt _ hb

theorem prefixAt_zero (hkey : key < b ^ (height + 1)) : prefixAt b height 0 key = 0 :=
  Nat.div_eq_of_lt hkey

@[simp]
theorem prefixAt_leaf : prefixAt b height (height + 1) key = key := by
  simp [prefixAt]

/-- The parent of a node on the way to a key is on the way too. -/
theorem prefixAt_succ_div (hb : 0 < b) (hlevel : level ≤ height) :
    prefixAt b height (level + 1) key / b = prefixAt b height level key := by
  rw [prefixAt_succ hlevel, Nat.mul_add_div hb, Nat.div_eq_of_lt (digitAt_lt hb), Nat.add_zero]

end Keys

/-! ## Placements -/

/-- Which nodes exist, and the number of the table of each.  The root is table 0,
tables are numbered up to `count`, and the parent of a node exists. -/
structure Placement (b : ℕ) where
  count : ℕ
  table : ℕ → ℕ → Option ℕ
  root : table 0 0 = some 0
  bounded : ∀ {level node k}, table level node = some k → k ≤ count
  injective : ∀ {level node level' node' k}, table level node = some k →
    table level' node' = some k → level = level' ∧ node = node'
  closed : ∀ {level node}, (table (level + 1) node).isSome → (table level (node / b)).isSome

variable {b : ℕ}

def Placement.initial (b : ℕ) : Placement b where
  count := 0
  table level node := if level = 0 ∧ node = 0 then some 0 else none
  root := by simp
  bounded := by
    intro level node k htable
    split_ifs at htable with hroot
    exact (Option.some.inj htable).ge
  injective := by
    intro level node level' node' k htable htable'
    split_ifs at htable htable' with hroot hroot'
    exact ⟨hroot.1.trans hroot'.1.symm, hroot.2.trans hroot'.2.symm⟩
  closed := by simp

/-- Add the node at `level + 1` in the next table, unless it exists already or its
parent does not. -/
def Placement.grow (placement : Placement b) (level node : ℕ) : Placement b :=
  if hnew : (placement.table level (node / b)).isSome ∧ placement.table (level + 1) node = none then
    { count := placement.count + 1
      table := fun level' node' =>
        if level' = level + 1 ∧ node' = node then some (placement.count + 1)
        else placement.table level' node'
      root := by
        rw [if_neg (by omega)]
        exact placement.root
      bounded := by
        intro level' node' k htable
        split_ifs at htable with hsame
        · exact (Option.some.inj htable).ge
        · exact (placement.bounded htable).trans (Nat.le_succ _)
      injective := by
        intro level₁ node₁ level₂ node₂ k h₁ h₂
        split_ifs at h₁ h₂ with hsame₁ hsame₂ hsame₂
        · exact ⟨hsame₁.1.trans hsame₂.1.symm, hsame₁.2.trans hsame₂.2.symm⟩
        · have := placement.bounded h₂
          have := Option.some.inj h₁
          omega
        · have := placement.bounded h₁
          have := Option.some.inj h₂
          omega
        · exact placement.injective h₁ h₂
      closed := by
        intro level' node' htable
        have hparent : (placement.table level' (node' / b)).isSome := by
          split_ifs at htable with hsame
          · obtain ⟨hlevel, rfl⟩ := hsame
            obtain rfl : level' = level := by omega
            exact hnew.1
          · exact placement.closed htable
        split_ifs with hsame
        · rfl
        · exact hparent }
  else placement

section Grow

variable {placement : Placement b} {level node level' node' k : ℕ}

theorem grow_of_isSome (hold : (placement.table (level + 1) node).isSome) :
    placement.grow level node = placement := by
  rw [Placement.grow, dif_neg]
  rintro ⟨-, hnone⟩
  simp [hnone] at hold

theorem grow_of_none (hparent : (placement.table level (node / b)).isSome)
    (hnone : placement.table (level + 1) node = none) :
    (placement.grow level node).count = placement.count + 1 ∧
      ∀ level' node', (placement.grow level node).table level' node' =
        if level' = level + 1 ∧ node' = node then some (placement.count + 1)
        else placement.table level' node' := by
  rw [Placement.grow, dif_pos ⟨hparent, hnone⟩]
  exact ⟨rfl, fun _ _ => rfl⟩

/-- What exists stays where it is. -/
theorem table_grow_of_some (htable : placement.table level' node' = some k) :
    (placement.grow level node).table level' node' = some k := by
  unfold Placement.grow
  split_ifs with hnew
  · change (if _ then _ else _) = _
    rw [if_neg, htable]
    rintro ⟨rfl, rfl⟩
    rw [hnew.2] at htable
    cases htable
  · exact htable

theorem isSome_table_grow (hparent : (placement.table level (node / b)).isSome) :
    ((placement.grow level node).table level' node').isSome ↔
      (level' = level + 1 ∧ node' = node) ∨ (placement.table level' node').isSome := by
  cases hold : placement.table (level + 1) node with
  | some k =>
      rw [grow_of_isSome (by simp [hold])]
      constructor
      · exact Or.inr
      · rintro (⟨rfl, rfl⟩ | hsome)
        · simp [hold]
        · exact hsome
  | none =>
      rw [(grow_of_none hparent hold).2]
      split_ifs with hsame
      · simp [hsame]
      · simp [hsame]

theorem count_le_grow (placement : Placement b) (level node : ℕ) :
    placement.count ≤ (placement.grow level node).count := by
  unfold Placement.grow
  split_ifs
  · exact Nat.le_succ _
  · exact le_rfl

end Grow

section Path

variable {placement : Placement b} {height key level : ℕ}

/-- Ancestors of an existing node on the way to a key exist. -/
theorem isSome_of_le (hb : 0 < b) {lower : ℕ} (hle : lower ≤ level) (hlevel : level ≤ height + 1)
    (hsome : (placement.table level (prefixAt b height level key)).isSome) :
    (placement.table lower (prefixAt b height lower key)).isSome := by
  induction level, hle using Nat.le_induction with
  | base => exact hsome
  | succ level hle ih =>
      apply ih (by omega)
      rw [← prefixAt_succ_div hb (by omega)]
      exact placement.closed hsome

/-- Add the nodes at levels `1` to `levels` on the way to `key`. -/
def Placement.growPath (placement : Placement b) (height key : ℕ) : ℕ → Placement b
  | 0 => placement
  | levels + 1 =>
      (placement.growPath height key levels).grow levels (prefixAt b height (levels + 1) key)

theorem table_growPath_of_some {levels level' node' k : ℕ}
    (htable : placement.table level' node' = some k) :
    (placement.growPath height key levels).table level' node' = some k := by
  induction levels with
  | zero => exact htable
  | succ levels ih => exact table_grow_of_some ih

theorem isSome_growPath_self (hb : 0 < b) (hkey : key < b ^ (height + 1)) {levels : ℕ}
    (hlevels : levels ≤ height) :
    ((placement.growPath height key levels).table levels
      (prefixAt b height levels key)).isSome := by
  induction levels with
  | zero =>
      rw [prefixAt_zero hkey, table_growPath_of_some placement.root]
      rfl
  | succ levels ih =>
      rw [Placement.growPath, isSome_table_grow]
      · exact Or.inl ⟨rfl, rfl⟩
      · rw [prefixAt_succ_div hb (by omega)]
        exact ih (by omega)

end Path

/-! ## Counting -/

/-- Number of blocks of `size` needed for `keys` consecutive keys. -/
def blocks (keys size : ℕ) : ℕ := (keys + (size - 1)) / size

theorem blocks_succ (keys : ℕ) {size : ℕ} (hsize : 0 < size) :
    blocks (keys + 1) size = blocks keys size + if size ∣ keys then 1 else 0 := by
  have hdvd : size ∣ keys + (size - 1) + 1 ↔ size ∣ keys := by
    rw [show keys + (size - 1) + 1 = keys + size by omega]
    exact Nat.dvd_add_self_right
  rw [blocks, blocks, show keys + 1 + (size - 1) = keys + (size - 1) + 1 by omega, Nat.succ_div]
  simp only [hdvd]

/-- The placement holds exactly the nodes, at each level from 1 to `height`, on the
way to the keys below the bound of that level. -/
structure FilledTo (height : ℕ) (bound : ℕ → ℕ) (placement : Placement b) : Prop where
  table_iff : ∀ level < height, ∀ node, (placement.table (level + 1) node).isSome ↔
    node * b ^ (height - level) < bound level
  count_eq : placement.count = ∑ level ∈ Finset.range height,
    blocks (bound level) (b ^ (height - level))

theorem filledTo_initial (height : ℕ) (hb : 0 < b) :
    FilledTo height (fun _ => 0) (Placement.initial b) where
  table_iff level hlevel node := by simp [Placement.initial]
  count_eq := by
    symm
    apply Finset.sum_eq_zero
    intro level _
    have hpos : 0 < b ^ (height - level) := Nat.pow_pos hb
    exact Nat.div_eq_of_lt (by omega)

section Count

variable {placement : Placement b} {height key level : ℕ} {bound : ℕ → ℕ}

theorem prefixAt_eq_div (hlevel : level < height) :
    prefixAt b height (level + 1) key = key / b ^ (height - level) := by
  rw [prefixAt, show height + 1 - (level + 1) = height - level by omega]

/-- The node on the way to `key` is the only one that its key adds to those below it. -/
theorem mul_lt_succ_iff {size node : ℕ} (hsize : 0 < size) :
    node * size < key + 1 ↔ node = key / size ∨ node * size < key := by
  rw [Nat.lt_succ_iff, le_iff_eq_or_lt]
  constructor
  · rintro (heq | hlt)
    · exact Or.inl (Nat.div_eq_of_eq_mul_left hsize heq.symm).symm
    · exact Or.inr hlt
  · rintro (rfl | hlt)
    · exact le_iff_eq_or_lt.mp (Nat.div_mul_le_self _ _)
    · exact Or.inr hlt

theorem sum_blocks_update (hb : 0 < b) (hlevel : level < height) (hbound : bound level = key) :
    ∑ level' ∈ Finset.range height,
        blocks (Function.update bound level (key + 1) level') (b ^ (height - level')) =
      ∑ level' ∈ Finset.range height, blocks (bound level') (b ^ (height - level')) +
        if b ^ (height - level) ∣ key then 1 else 0 := by
  have hpos : 0 < b ^ (height - level) := Nat.pow_pos hb
  rw [← Finset.sum_erase_add _ _ (Finset.mem_range.mpr hlevel),
    ← Finset.sum_erase_add (Finset.range height) (fun level' => blocks (bound level') _)
      (Finset.mem_range.mpr hlevel), Function.update_self, blocks_succ _ hpos, hbound,
    Nat.add_assoc]
  congr 1
  apply Finset.sum_congr rfl
  intro level' hmem
  rw [Function.update_of_ne (Finset.ne_of_mem_erase hmem)]

/-- The node on the way to `key` is missing exactly if `key` starts a new block. -/
theorem FilledTo.isSome_iff (hb : 0 < b) (hfilled : FilledTo height bound placement)
    (hlevel : level < height) (hbound : bound level = key) :
    (placement.table (level + 1) (prefixAt b height (level + 1) key)).isSome ↔
      ¬ b ^ (height - level) ∣ key := by
  have hpos : 0 < b ^ (height - level) := Nat.pow_pos hb
  rw [hfilled.table_iff level hlevel, hbound, prefixAt_eq_div hlevel]
  constructor
  · intro hlt hdvd
    rw [Nat.div_mul_cancel hdvd] at hlt
    exact lt_irrefl _ hlt
  · intro hdvd
    apply lt_of_le_of_ne (Nat.div_mul_le_self _ _)
    intro heq
    exact hdvd ⟨_, by rw [Nat.mul_comm]; exact heq.symm⟩

/-- Adding the node of the first key that is not covered covers that key. -/
theorem FilledTo.grow (hb : 0 < b) (hfilled : FilledTo height bound placement)
    (hlevel : level < height) (hbound : bound level = key)
    (hparent : (placement.table level (prefixAt b height level key)).isSome) :
    FilledTo height (Function.update bound level (key + 1))
      (placement.grow level (prefixAt b height (level + 1) key)) := by
  have hparent' : (placement.table level (prefixAt b height (level + 1) key / b)).isSome := by
    rw [prefixAt_succ_div hb hlevel.le]
    exact hparent
  constructor
  · intro level' hlevel' node
    rw [isSome_table_grow hparent', hfilled.table_iff level' hlevel']
    by_cases hsame : level' = level
    · subst hsame
      rw [Function.update_self, hbound, mul_lt_succ_iff (Nat.pow_pos hb), prefixAt_eq_div hlevel]
      simp
    · rw [Function.update_of_ne hsame]
      constructor
      · rintro (⟨heq, -⟩ | hlt)
        · omega
        · exact hlt
      · exact Or.inr
  · rw [sum_blocks_update hb hlevel hbound, ← hfilled.count_eq]
    have hold := hfilled.isSome_iff hb hlevel hbound
    by_cases hdvd : b ^ (height - level) ∣ key
    · have hnone := Option.not_isSome_iff_eq_none.mp fun hsome => hold.mp hsome hdvd
      rw [if_pos hdvd, (grow_of_none hparent' hnone).1]
    · rw [if_neg hdvd, grow_of_isSome (hold.mpr hdvd), Nat.add_zero]

/-- After the keys below `key`, the path to `key` leaves the keys below `key + 1`. -/
theorem FilledTo.growPath (hb : 0 < b) (hfilled : FilledTo height (fun _ => key) placement)
    (hkey : key < b ^ (height + 1)) :
    FilledTo height (fun _ => key + 1) (placement.growPath height key height) := by
  have hlevels : ∀ levels ≤ height, FilledTo height
      (fun level => if level < levels then key + 1 else key)
      (placement.growPath height key levels) := by
    intro levels
    induction levels with
    | zero => exact fun _ => hfilled
    | succ levels ih =>
        intro hle
        have hbound : (fun level => if level < levels + 1 then key + 1 else key) =
            Function.update (fun level => if level < levels then key + 1 else key) levels
              (key + 1) := by
          funext level
          by_cases hsame : level = levels
          · rw [hsame, Function.update_self, if_pos (Nat.lt_succ_self _)]
          · rw [Function.update_of_ne hsame]
            have hlt : level < levels + 1 ↔ level < levels := by omega
            simp only [hlt]
        rw [hbound]
        exact (ih (by omega)).grow hb (by omega) (if_neg (lt_irrefl _))
          (isSome_growPath_self hb hkey (by omega))
  have hall := hlevels height le_rfl
  constructor
  · intro level hlevel node
    rw [hall.table_iff level hlevel, if_pos hlevel]
  · rw [hall.count_eq]
    apply Finset.sum_congr rfl
    intro level hmem
    rw [if_pos (Finset.mem_range.mp hmem)]

end Count

/-! ## Layouts -/

section Layout

variable {W A : Type*}

/-- Where a child leads: to the address of its table or, at the last level, to the
value of the leaf. -/
def target (height : ℕ) (address : ℕ → A) (placement : Placement b) (leaf : ℕ → Option A)
    (level node : ℕ) : Option A :=
  if level ≤ height then (placement.table level node).map address else leaf node

/-- The cells hold the tree: cell `index` of the table of a node encodes the child of
that index. -/
structure Layout (height : ℕ) (link : ℕ → ℕ → Option A → W) (address : ℕ → A)
    (placement : Placement b) (leaf : ℕ → Option A) (cells : ℕ → W) : Prop where
  cell : ∀ {level node k index}, level ≤ height → placement.table level node = some k →
    index < b → cells (b * k + index) =
      link level index (target height address placement leaf (level + 1) (b * node + index))
  held : ∀ {key}, (leaf key).isSome → (placement.table height (key / b)).isSome

variable {height level node index k key : ℕ} {link : ℕ → ℕ → Option A → W} {address : ℕ → A}
  {placement : Placement b} {leaf : ℕ → Option A} {cells cells' : ℕ → W} {value : A}

theorem cell_inj {k' index' : ℕ} (hindex : index < b) (hindex' : index' < b)
    (heq : b * k + index = b * k' + index') : k = k' ∧ index = index' := by
  have hpos : 0 < b := by omega
  have hquot := congrArg (· / b) heq
  simp only [Nat.mul_add_div hpos, Nat.div_eq_of_lt hindex, Nat.div_eq_of_lt hindex',
    Nat.add_zero] at hquot
  subst hquot
  exact ⟨rfl, by omega⟩

theorem child_div (hindex : index < b) : (b * node + index) / b = node := by
  rw [Nat.mul_add_div (by omega), Nat.div_eq_of_lt hindex, Nat.add_zero]

/-- A node that does not exist has no children. -/
theorem Layout.target_eq_none (hlayout : Layout height link address placement leaf cells)
    (hlevel : level ≤ height) (hnone : placement.table level node = none) (hindex : index < b) :
    target height address placement leaf (level + 1) (b * node + index) = none := by
  rw [target]
  split_ifs with hinner
  · rw [Option.map_eq_none_iff]
    by_contra hsome
    have hparent := placement.closed (Option.ne_none_iff_isSome.mp hsome)
    rw [child_div hindex, hnone] at hparent
    cases hparent
  · by_contra hleaf
    have hparent := hlayout.held (Option.ne_none_iff_isSome.mp hleaf)
    rw [child_div hindex, show height = level by omega, hnone] at hparent
    cases hparent

/-- The cell read on the way to a key. -/
theorem Layout.cell_prefix (hlayout : Layout height link address placement leaf cells)
    (hb : 0 < b) (hlevel : level ≤ height)
    (htable : placement.table level (prefixAt b height level key) = some k) :
    cells (b * k + digitAt b height level key) = link level (digitAt b height level key)
      (target height address placement leaf (level + 1) (prefixAt b height (level + 1) key)) := by
  rw [hlayout.cell hlevel htable (digitAt_lt hb), prefixAt_succ hlevel]

/-- Only the cells of existing tables matter. -/
theorem Layout.congr (hlayout : Layout height link address placement leaf cells)
    (hsame : ∀ k ≤ placement.count, ∀ index < b, cells' (b * k + index) = cells (b * k + index)) :
    Layout height link address placement leaf cells' where
  cell hlevel htable hindex := by
    rw [hsame _ (placement.bounded htable) _ hindex, hlayout.cell hlevel htable hindex]
  held := hlayout.held

/-- A node is added: its parent's cell links to the new table, the cells of the new
table link to nothing, and no other cell changes. -/
theorem Layout.create (hlayout : Layout height link address placement leaf cells)
    (hlevel : level + 1 ≤ height) (htable : placement.table level node = some k)
    (hindex : index < b) (hnone : placement.table (level + 1) (b * node + index) = none)
    (hlink : cells' (b * k + index) = link level index (some (address (placement.count + 1))))
    (hfresh : ∀ index' < b,
      cells' (b * (placement.count + 1) + index') = link (level + 1) index' none)
    (hrest : ∀ k' ≤ placement.count, ∀ index' < b, b * k' + index' ≠ b * k + index →
      cells' (b * k' + index') = cells (b * k' + index')) :
    Layout height link address (placement.grow level (b * node + index)) leaf cells' := by
  have hparent : (placement.table level ((b * node + index) / b)).isSome := by
    rw [child_div hindex, htable]
    rfl
  have hgrown := (grow_of_none hparent hnone).2
  have htarget : ∀ {level' node'}, ¬ (level' = level + 1 ∧ node' = b * node + index) →
      target height address (placement.grow level (b * node + index)) leaf level' node' =
        target height address placement leaf level' node' := by
    intro level' node' hother
    rw [target, target, hgrown, if_neg hother]
  constructor
  · intro level' node' k' index' hlevel' htable' hindex'
    rw [hgrown] at htable'
    split_ifs at htable' with hnew
    · -- The new table: none of its children exists, because it did not exist itself.
      obtain ⟨rfl, rfl⟩ := hnew
      obtain rfl := Option.some.inj htable'
      rw [hfresh index' hindex', htarget (by omega),
        hlayout.target_eq_none hlevel hnone hindex']
    · by_cases hcell : b * k' + index' = b * k + index
      · obtain ⟨rfl, rfl⟩ := cell_inj hindex' hindex hcell
        obtain ⟨rfl, rfl⟩ := placement.injective htable' htable
        rw [hlink, target, if_pos hlevel, hgrown, if_pos ⟨rfl, rfl⟩]
        rfl
      · rw [hrest k' (placement.bounded htable') index' hindex' hcell,
          hlayout.cell hlevel' htable' hindex', htarget]
        rintro ⟨hsame, hnode⟩
        obtain rfl : level' = level := by omega
        obtain ⟨rfl, rfl⟩ := cell_inj hindex' hindex hnode
        rw [htable] at htable'
        exact hcell (by rw [Option.some.inj htable'])
  · intro key hleaf
    rw [hgrown]
    split_ifs
    · rfl
    · exact hlayout.held hleaf

/-- A leaf is set: its cell holds the new value and no other cell changes. -/
theorem Layout.assign (hlayout : Layout height link address placement leaf cells)
    (hb : 0 < b) (htable : placement.table height (key / b) = some k)
    (hlink : cells' (b * k + key % b) = link height (key % b) (some value))
    (hrest : ∀ k' ≤ placement.count, ∀ index' < b, b * k' + index' ≠ b * k + key % b →
      cells' (b * k' + index') = cells (b * k' + index')) :
    Layout height link address placement (Function.update leaf key (some value)) cells' := by
  constructor
  · intro level' node' k' index' hlevel' htable' hindex'
    by_cases hcell : b * k' + index' = b * k + key % b
    · obtain ⟨rfl, rfl⟩ := cell_inj hindex' (Nat.mod_lt key hb) hcell
      obtain ⟨rfl, rfl⟩ := placement.injective htable' htable
      rw [hlink, target, if_neg (by omega), Nat.div_add_mod, Function.update_self]
    · rw [hrest k' (placement.bounded htable') index' hindex' hcell,
        hlayout.cell hlevel' htable' hindex']
      congr 1
      rw [target, target]
      split_ifs with hinner
      · rfl
      · rw [Function.update_of_ne]
        rintro rfl
        obtain rfl : level' = height := by omega
        rw [child_div hindex', htable'] at htable
        obtain rfl := Option.some.inj htable
        exact hcell (by rw [Nat.mul_add_mod, Nat.mod_eq_of_lt hindex'])
  · intro key' hleaf
    by_cases hsame : key' = key
    · rw [hsame, htable]
      rfl
    · rw [Function.update_of_ne hsame] at hleaf
      exact hlayout.held hleaf

end Layout

end RedX.RadixTree
