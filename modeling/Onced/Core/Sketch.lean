import Onced.Core.Store
import Onced.Foundation.Frequency

/-! # The Count-Min sketch

Frequencies of a huge number of keys in fixed memory: rows of counters, of which each key
bumps one in every row. The rows stand in one vector, one after the other. Sizes and
positions are machine words and wrap.
-/

namespace Onced

open Foundation

/-- Rows of counters, row by row in one vector. -/
structure CountMinSketch where
  depth : UInt64
  width : UInt64
  depth_pos : 0 < depth
  width_pos : 0 < width
  counters : Vector UInt64 (depth * width).toNat

/-- What the hasher makes of a row and a key. -/
abbrev RowHash := UInt64 → String → UInt64

namespace CountMinSketch

/-- A vector holds at most `isize::MAX` bytes, and a counter takes eight. -/
def new (depth width : UInt64) : Except Panic CountMinSketch :=
  if hsizes : 0 < depth ∧ 0 < width then
    if 8 * (depth * width).toNat ≤ 2 ^ 63 - 1 then
      .ok ⟨depth, width, hsizes.1, hsizes.2, Vector.replicate _ 0⟩
    else .error "capacity overflow"
  else .error "depth and width must be non-zero"

variable (hash : RowHash) (sketch : CountMinSketch)

/-- The column of a key in a row. -/
def column (row : UInt64) (key : String) : UInt64 := hash row key % sketch.width

/-- Where the counter of a key in a row stands. -/
def index (row : UInt64) (key : String) : UInt64 := row * sketch.width + sketch.column hash row key

/-- The counter of a key in a row. -/
def cell (key : String) (row : Nat) : Except Panic UInt64 :=
  match sketch.counters[(sketch.index hash (UInt64.ofNat row) key).toNat]? with
  | some counter => .ok counter
  | none => .error "index out of bounds"

/-- Bump the counter of a key in one row. -/
def addRow (key : String) (count : UInt64) (sketch : CountMinSketch) (row : Nat) :
    Except Panic CountMinSketch := do
  let counter ← sketch.cell hash key row
  let position := (sketch.index hash (UInt64.ofNat row) key).toNat
  return { sketch with
    counters := sketch.counters.setIfInBounds position (saturatingAdd counter count) }

/-- Record occurrences of a key. -/
def add (key : String) (count : UInt64) : Except Panic CountMinSketch :=
  (List.range sketch.depth.toNat).foldlM (addRow hash key count) sketch

/-- The least counter of a key. -/
def estimate (key : String) : Except Panic UInt64 := do
  let counters ← (List.range sketch.depth.toNat).mapM (sketch.cell hash key)
  return counters.min?.getD 0

/-- Calls of `add` one after the other. -/
def addAll (adds : List (String × UInt64)) : Except Panic CountMinSketch :=
  adds.foldlM (fun current call => current.add hash call.1 call.2) sketch

/-! ## The table of counters -/

/-- The counters of all rows fit in the numbers of a machine word. -/
def Fits : Prop := sketch.depth.toNat * sketch.width.toNat < 2 ^ 64

/-- The column of a key, as a column of the table. -/
def columnOf (row : Fin sketch.depth.toNat) (key : String) : Fin sketch.width.toNat :=
  ⟨(sketch.column hash (UInt64.ofNat row) key).toNat, by
    rw [column, UInt64.toNat_mod]
    exact Nat.mod_lt _ (UInt64.lt_iff_toNat_lt.mp sketch.width_pos)⟩

/-- The counter in a row and a column. -/
def table (row : Fin sketch.depth.toNat) (col : Fin sketch.width.toNat) : Nat :=
  (sketch.counters[row.val * sketch.width.toNat + col.val]?.getD 0).toNat

/-- Counters hold machine words. -/
def counterMax : Nat := 2 ^ 64 - 1

variable {sketch}

theorem table_le (row : Fin sketch.depth.toNat) (col : Fin sketch.width.toNat) :
    sketch.table row col ≤ counterMax :=
  Nat.le_sub_one_of_lt (UInt64.toNat_lt _)

theorem position_lt (row : Fin sketch.depth.toNat) (col : Fin sketch.width.toNat) :
    row.val * sketch.width.toNat + col.val < sketch.depth.toNat * sketch.width.toNat := by
  have hrow := Nat.mul_le_mul_right sketch.width.toNat (Nat.succ_le_of_lt row.isLt)
  have hcol := col.isLt
  rw [Nat.succ_mul] at hrow
  omega

/-- Rows are disjoint. -/
theorem position_inj {row other : Fin sketch.depth.toNat} {col otherCol : Fin sketch.width.toNat}
    (heq : row.val * sketch.width.toNat + col.val =
      other.val * sketch.width.toNat + otherCol.val) :
    row = other ∧ col = otherCol := by
  have hpos : 0 < sketch.width.toNat := UInt64.lt_iff_toNat_lt.mp sketch.width_pos
  have hdiv := congrArg (· / sketch.width.toNat) heq
  have hmod := congrArg (· % sketch.width.toNat) heq
  simp only [mul_comm _ sketch.width.toNat, Nat.mul_add_div hpos, Nat.mul_add_mod,
    Nat.div_eq_of_lt col.isLt, Nat.div_eq_of_lt otherCol.isLt, Nat.add_zero] at hdiv hmod
  rw [Nat.mod_eq_of_lt col.isLt, Nat.mod_eq_of_lt otherCol.isLt] at hmod
  exact ⟨Fin.ext hdiv, Fin.ext hmod⟩

theorem Fits.counters_eq (hfits : sketch.Fits) :
    (sketch.depth * sketch.width).toNat = sketch.depth.toNat * sketch.width.toNat := by
  rw [UInt64.toNat_mul]
  exact Nat.mod_eq_of_lt hfits

/-- Positions that fit do not wrap. -/
theorem Fits.index_eq (hfits : sketch.Fits) (row : Fin sketch.depth.toNat) (key : String) :
    (sketch.index hash (UInt64.ofNat row) key).toNat =
      row.val * sketch.width.toNat + (sketch.columnOf hash row key).val := by
  have hlt := Nat.lt_trans (position_lt row (sketch.columnOf hash row key)) hfits
  have hrow : (UInt64.ofNat row).toNat = row.val :=
    UInt64.toNat_ofNat_of_lt' (Nat.lt_trans row.isLt (UInt64.toNat_lt _))
  rw [index, UInt64.toNat_add, UInt64.toNat_mul, hrow, Nat.mod_add_mod]
  exact Nat.mod_eq_of_lt hlt

/-- Every counter of a key is there. -/
theorem Fits.cell_eq (hfits : sketch.Fits) (key : String) (row : Fin sketch.depth.toNat) :
    ∃ counter, sketch.cell hash key row = .ok counter ∧
      counter.toNat = sketch.table row (sketch.columnOf hash row key) := by
  have hlt := position_lt row (sketch.columnOf hash row key)
  rw [← hfits.counters_eq] at hlt
  refine ⟨sketch.counters.get ⟨_, hlt⟩, ?_, ?_⟩
  · rw [cell, hfits.index_eq, Vector.getElem?_eq_getElem hlt]
    rfl
  · rw [table, Vector.getElem?_eq_getElem hlt]
    rfl

/-- Bumping a counter leaves the others alone. -/
theorem Fits.addRow_eq (hfits : sketch.Fits) (key : String) (count : UInt64)
    (row : Fin sketch.depth.toNat) :
    ∃ counters, addRow hash key count sketch row = .ok { sketch with counters } ∧
      ∀ other col, table { sketch with counters } other col =
        if other = row ∧ sketch.columnOf hash row key = col then
          min (sketch.table other col + count.toNat) counterMax
        else sketch.table other col := by
  obtain ⟨counter, hcell, hcounter⟩ := hfits.cell_eq hash key row
  refine ⟨sketch.counters.setIfInBounds
    (row.val * sketch.width.toNat + (sketch.columnOf hash row key).val)
    (saturatingAdd counter count), ?_, ?_⟩
  · rw [addRow, hcell, hfits.index_eq]
    rfl
  · intro other col
    have hlt := position_lt row (sketch.columnOf hash row key)
    rw [← hfits.counters_eq] at hlt
    simp only [table, Vector.getElem?_setIfInBounds]
    by_cases hsame : other = row ∧ sketch.columnOf hash row key = col
    · rw [if_pos hsame, hsame.1, ← hsame.2, if_pos rfl, if_pos hlt, Option.getD_some,
        saturatingAdd_toNat, hcounter]
      rfl
    · rw [if_neg hsame, if_neg]
      intro heq
      obtain ⟨hrow, hcol⟩ := position_inj heq
      exact hsame ⟨hrow.symm, hcol⟩

/-- The loop over the rows counts the key in one cell of each. -/
theorem Fits.add_eq (hfits : sketch.Fits) (key : String) (count : UInt64) :
    ∃ counters, sketch.add hash key count = .ok { sketch with counters } ∧
      table { sketch with counters } =
        tally (sketch.columnOf hash) counterMax sketch.table (key, count.toNat) := by
  -- after some rows, the cells of these rows have counted the key and the others have not
  have hloop : ∀ rows ≤ sketch.depth.toNat, ∃ counters,
      (List.range rows).foldlM (addRow hash key count) sketch = .ok { sketch with counters } ∧
      ∀ row col, table { sketch with counters } row col =
        if row.val < rows then
          tally (sketch.columnOf hash) counterMax sketch.table (key, count.toNat) row col
        else sketch.table row col := by
    intro rows hrows
    induction rows with
    | zero => exact ⟨sketch.counters, rfl, fun row col => rfl⟩
    | succ rows ih =>
        obtain ⟨counters, hfold, htable⟩ := ih (Nat.le_of_succ_le hrows)
        obtain ⟨next, hrow, hnext⟩ := (show Fits { sketch with counters } from hfits).addRow_eq
          hash key count ⟨rows, hrows⟩
        refine ⟨next, ?_, ?_⟩
        · rw [List.range_succ, List.foldlM_append, hfold]
          exact (bind_pure _).trans hrow
        · intro row col
          rw [hnext, htable]
          by_cases hlast : row = ⟨rows, hrows⟩
          · subst hlast
            rw [if_neg (Nat.lt_irrefl rows), if_pos (Nat.lt_succ_self rows), tally]
            simp only [true_and]
            rfl
          · have hne : row.val ≠ rows := fun heq => hlast (Fin.ext heq)
            rw [if_neg (fun h => hlast h.1)]
            simp only [show row.val < rows + 1 ↔ row.val < rows by omega]
  obtain ⟨counters, hadd, htable⟩ := hloop sketch.depth.toNat (le_refl _)
  refine ⟨counters, hadd, ?_⟩
  funext row col
  rw [htable, if_pos row.isLt]

/-- What the calls recorded, as numbers. -/
def recorded (adds : List (String × UInt64)) : List (String × Nat) :=
  adds.map fun call => (call.1, call.2.toNat)

theorem Fits.addAll_eq (hfits : sketch.Fits) (adds : List (String × UInt64)) :
    ∃ counters, sketch.addAll hash adds = .ok { sketch with counters } ∧
      table { sketch with counters } =
        (recorded adds).foldl (tally (sketch.columnOf hash) counterMax) sketch.table := by
  induction adds generalizing sketch with
  | nil => exact ⟨sketch.counters, rfl, rfl⟩
  | cons call adds ih =>
      obtain ⟨counters, hadd, htable⟩ := hfits.add_eq hash call.1 call.2
      obtain ⟨last, hrest, hlast⟩ := ih (show Fits { sketch with counters } from hfits)
      refine ⟨last, ?_, ?_⟩
      · rw [addAll, List.foldlM_cons, hadd]
        exact hrest
      · rw [hlast, htable]
        rfl

/-- Reading every element collects what was read. -/
theorem mapM_ok {α β ε : Type} {read : α → Except ε β} {items : List α}
    (hread : ∀ item ∈ items, ∃ value, read item = .ok value) :
    ∃ values, items.mapM read = .ok values ∧
      ∀ value, value ∈ values ↔ ∃ item ∈ items, read item = .ok value := by
  induction items with
  | nil => exact ⟨[], rfl, by simp⟩
  | cons item items ih =>
      obtain ⟨first, hfirst⟩ := hread item (List.mem_cons_self)
      obtain ⟨values, hvalues, hmem⟩ := ih fun other hother =>
        hread other (List.mem_cons_of_mem _ hother)
      refine ⟨first :: values, ?_, ?_⟩
      · rw [List.mapM_cons, hfirst, hvalues]
        rfl
      · intro value
        rw [List.mem_cons, hmem, List.exists_mem_cons_iff, hfirst, Except.ok.injEq, eq_comm]

/-- The estimate is the least counter of the key. -/
theorem Fits.estimate_eq (hfits : sketch.Fits) (key : String) :
    ∃ estimate, sketch.estimate hash key = .ok estimate ∧
      IsLeast (Set.range fun row => sketch.table row (sketch.columnOf hash row key))
        estimate.toNat := by
  have hread : ∀ row ∈ List.range sketch.depth.toNat,
      ∃ counter, sketch.cell hash key row = .ok counter := by
    intro row hrow
    obtain ⟨counter, hcell, _⟩ := hfits.cell_eq hash key ⟨row, List.mem_range.mp hrow⟩
    exact ⟨counter, hcell⟩
  obtain ⟨counters, hcounters, hmem⟩ := mapM_ok hread
  have hcell : ∀ (row : Fin sketch.depth.toNat) counter, sketch.cell hash key row = .ok counter →
      counter.toNat = sketch.table row (sketch.columnOf hash row key) := by
    intro row counter hcounter
    obtain ⟨_, hcell, htable⟩ := hfits.cell_eq hash key row
    cases hcell.symm.trans hcounter
    exact htable
  obtain ⟨least, hleast⟩ : ∃ least, counters.min? = some least := by
    have hzero := List.mem_range.mpr (UInt64.lt_iff_toNat_lt.mp sketch.depth_pos)
    obtain ⟨first, hfirst⟩ := hread 0 hzero
    apply Option.isSome_iff_exists.mp
    exact List.isSome_min?_of_mem ((hmem first).mpr ⟨0, hzero, hfirst⟩)
  have hmin := List.min?_eq_some_iff.mp hleast
  refine ⟨least, ?_, ?_, ?_⟩
  · rw [estimate, hcounters]
    exact congrArg Except.ok (by rw [hleast]; rfl)
  · obtain ⟨row, hrow, hcounter⟩ := (hmem least).mp hmin.1
    exact ⟨⟨row, List.mem_range.mp hrow⟩,
      (hcell ⟨row, List.mem_range.mp hrow⟩ least hcounter).symm⟩
  · rintro _ ⟨row, rfl⟩
    obtain ⟨counter, hcounter, htable⟩ := hfits.cell_eq hash key row
    have hle := hmin.2 counter ((hmem counter).mpr ⟨row, List.mem_range.mpr row.isLt, hcounter⟩)
    exact (UInt64.le_iff_toNat_le.mp hle).trans_eq htable

/-! ## Positions that wrap -/

theorem addRow_counters {hash : RowHash} {key : String} {count : UInt64} {row : Nat}
    {next : CountMinSketch}
    (hadd : addRow hash key count sketch row = .ok next) :
    ∃ counters, next = { sketch with counters } := by
  unfold addRow at hadd
  cases hcell : sketch.cell hash key row with
  | error panic =>
      rw [hcell] at hadd
      cases hadd
  | ok counter =>
      rw [hcell] at hadd
      cases hadd
      exact ⟨_, rfl⟩

/-- A position that is not there stops the loop. -/
theorem addRows_ne_ok {hash : RowHash} {key : String} {count : UInt64} {rows : List Nat} {row : Nat}
    (hrow : row ∈ rows) (hout : (sketch.depth * sketch.width).toNat ≤
      (sketch.index hash (UInt64.ofNat row) key).toNat) (after : CountMinSketch) :
    rows.foldlM (addRow hash key count) sketch ≠ .ok after := by
  induction rows generalizing sketch with
  | nil => cases hrow
  | cons first rows ih =>
      rw [List.foldlM_cons]
      intro hok
      cases hfirst : addRow hash key count sketch first with
      | error panic =>
          rw [hfirst] at hok
          cases hok
      | ok next =>
          rw [hfirst] at hok
          rcases List.mem_cons.mp hrow with rfl | hrow
          · rw [addRow, cell, Vector.getElem?_eq_none hout] at hfirst
            cases hfirst
          · obtain ⟨counters, rfl⟩ := addRow_counters hfirst
            exact @ih { sketch with counters } hrow hout hok

variable (sketch) in
/-- Whatever is added, no call panics and the estimate of a key is the least of the counts
of the keys that share its column in a row. -/
def Exact : Prop :=
  ∀ (hash : RowHash) (adds : List (String × UInt64)) (key : String), ∃ after estimate,
    sketch.addAll hash adds = .ok after ∧ after.estimate hash key = .ok estimate ∧
      IsEstimate (sketch.columnOf hash) counterMax (recorded adds) key estimate.toNat ∧
      min (countOf (· = key) (recorded adds)) counterMax ≤ estimate.toNat ∧
      estimate.toNat ≤ min (countOf (fun _ => True) (recorded adds)) counterMax

theorem Fits.exact (hfits : sketch.Fits) (hzero : ∀ row col, sketch.table row col = 0) :
    sketch.Exact := by
  intro hash adds key
  obtain ⟨counters, hadds, htable⟩ := hfits.addAll_eq hash adds
  obtain ⟨estimate, hestimate, hleast⟩ :=
    (show Fits { sketch with counters } from hfits).estimate_eq hash key
  have hexact : IsEstimate (sketch.columnOf hash) counterMax
      (recorded adds) key estimate.toNat := by
    unfold IsEstimate
    convert hleast using 3 with row
    rw [htable, foldl_tally _ _ _ (table_le _ _), hzero, Nat.zero_add]
    rfl
  exact ⟨_, estimate, hadds, hestimate, hexact, hexact.count_le, hexact.le_total⟩

/-- A hash under which some row has a counter at the position of the highest machine word. -/
def highest (width : UInt64) : RowHash := fun _ _ =>
  UInt64.ofNat ((2 ^ 64 - 1) % width.toNat)

theorem index_highest (key : String) :
    (sketch.index (highest sketch.width) (UInt64.ofNat ((2 ^ 64 - 1) / sketch.width.toNat))
      key).toNat = 2 ^ 64 - 1 := by
  have hdivision := Nat.div_add_mod' (2 ^ 64 - 1) sketch.width.toNat
  have hrow : (2 ^ 64 - 1) / sketch.width.toNat < 2 ^ 64 :=
    Nat.lt_of_le_of_lt (Nat.div_le_self _ _) (by decide)
  have hcol : (2 ^ 64 - 1) % sketch.width.toNat < 2 ^ 64 :=
    Nat.lt_of_le_of_lt (Nat.mod_le _ _) (by decide)
  rw [index, column, highest, UInt64.toNat_add, UInt64.toNat_mul, UInt64.toNat_mod,
    UInt64.toNat_ofNat_of_lt' hrow, UInt64.toNat_ofNat_of_lt' hcol, Nat.mod_mod, Nat.mod_add_mod,
    hdivision]
  rfl

/-- In a table that does not fit, some row reaches a counter that is not there. -/
theorem not_exact (hwraps : ¬ sketch.Fits) : ¬ sketch.Exact := by
  intro hexact
  obtain ⟨after, _, hadds, _⟩ := hexact (highest sketch.width) [("", 1)] ""
  have hrow : (2 ^ 64 - 1) / sketch.width.toNat ∈ List.range sketch.depth.toNat := by
    rw [List.mem_range, Nat.div_lt_iff_lt_mul (UInt64.lt_iff_toNat_lt.mp sketch.width_pos)]
    unfold Fits at hwraps
    omega
  have hout : (sketch.depth * sketch.width).toNat ≤ (sketch.index (highest sketch.width)
      (UInt64.ofNat ((2 ^ 64 - 1) / sketch.width.toNat)) "").toNat := by
    rw [index_highest]
    exact Nat.le_sub_one_of_lt (UInt64.toNat_lt _)
  exact addRows_ne_ok hrow hout after ((bind_pure _).symm.trans hadds)

/-- A sketch is exact up to collisions if and only if its counters can be numbered by
machine words. -/
theorem exact_iff_of_new {depth width : UInt64} (hnew : new depth width = .ok sketch) :
    sketch.Exact ↔ depth.toNat * width.toNat < 2 ^ 64 := by
  unfold new at hnew
  split at hnew
  next hsizes =>
    split at hnew
    next hcapacity =>
      cases hnew
      constructor
      · intro hexact
        by_contra hwraps
        exact absurd hexact (not_exact hwraps)
      · intro hfits
        refine Fits.exact hfits fun row col => ?_
        rw [table, Vector.getElem?_replicate]
        split <;> rfl
    next => cases hnew
  next => cases hnew

/-- The sizes for which there is a sketch at all, and it is exact up to collisions, are those
whose counters fit into one vector. -/
theorem exact_iff (depth width : UInt64) (hdepth : 1 ≤ depth) (hwidth : 1 ≤ width) :
    (∃ sketch, new depth width = .ok sketch ∧ sketch.Exact) ↔
      8 * (depth.toNat * width.toNat) ≤ 2 ^ 63 - 1 := by
  have hsizes : 0 < depth ∧ 0 < width := by
    simp only [UInt64.lt_iff_toNat_lt, UInt64.le_iff_toNat_le] at hdepth hwidth ⊢
    exact ⟨hdepth, hwidth⟩
  have hproduct : depth.toNat * width.toNat < 2 ^ 64 →
      (depth * width).toNat = depth.toNat * width.toNat := by
    intro hfits
    rw [UInt64.toNat_mul, Nat.mod_eq_of_lt hfits]
  constructor
  · rintro ⟨sketch, hnew, hexact⟩
    have hfits := (exact_iff_of_new hnew).mp hexact
    rw [new, dif_pos hsizes] at hnew
    split at hnew
    next hcapacity => rwa [hproduct hfits] at hcapacity
    next => cases hnew
  · intro hcapacity
    have hfits : depth.toNat * width.toNat < 2 ^ 64 := by omega
    rw [← hproduct hfits] at hcapacity
    have hnew : new depth width =
        .ok ⟨depth, width, hsizes.1, hsizes.2, Vector.replicate _ 0⟩ := by
      rw [new, dif_pos hsizes, if_pos hcapacity]
    exact ⟨_, hnew, (exact_iff_of_new hnew).mpr hfits⟩

theorem exact_iff_four_rows : ∃ sketch, new 4 256 = .ok sketch ∧ sketch.Exact :=
  (exact_iff 4 256 (by decide) (by decide)).mpr (by decide)

/-- The counters of two rows of `2 ^ 63 + 1` are two more than there are machine words. The
vector gets two counters, and both rows of a key have theirs in the first: a key that is
added once is counted twice. -/
theorem estimate_wraps :
    let hash : RowHash := fun row _ => if row = 0 then 0 else 2 ^ 63 - 1
    (do
      let sketch ← new 2 (2 ^ 63 + 1)
      let after ← sketch.addAll hash [("key", 1)]
      after.estimate hash "key") = .ok 2 ∧
    countOf (fun _ => True) (recorded [("key", 1)]) = 1 :=
  ⟨by decide +kernel, by decide⟩

end CountMinSketch

end Onced
