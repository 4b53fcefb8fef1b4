import Mathlib

/-! # Counting in shared cells

Keys are counted in a table that has one cell for each row and column. A key has one
column in each row, and shares its cell with the other keys of that column. Cells stop
counting at a cap, so a cell holds the smaller of the cap and the counts of its keys,
and the least cell of a key bounds the count of the key from above.
-/

namespace Onced.Foundation

universe u v w

variable {κ : Type u}

/-- The sum of the counts recorded for the keys that meet a condition. -/
def countOf (included : κ → Prop) [DecidablePred included] : List (κ × Nat) → Nat
  | [] => 0
  | (key, count) :: recorded =>
      if included key then count + countOf included recorded else countOf included recorded

theorem countOf_mono {included other : κ → Prop} [DecidablePred included] [DecidablePred other]
    (himp : ∀ key, included key → other key) (recorded : List (κ × Nat)) :
    countOf included recorded ≤ countOf other recorded := by
  induction recorded with
  | nil => exact le_refl 0
  | cons entry recorded ih =>
      obtain ⟨key, count⟩ := entry
      simp only [countOf]
      by_cases hkey : included key
      · rw [if_pos hkey, if_pos (himp key hkey)]
        exact Nat.add_le_add_left ih count
      · rw [if_neg hkey]
        split
        · exact Nat.le_add_left_of_le ih
        · exact ih

section Table

variable {ρ : Type v} {γ : Type w} [DecidableEq γ] (column : ρ → κ → γ) (cap : Nat)

/-- Count a key in its cell of each row, up to the cap. -/
def tally (table : ρ → γ → Nat) (entry : κ × Nat) : ρ → γ → Nat := fun row col =>
  if column row entry.1 = col then min (table row col + entry.2) cap else table row col

/-- What a cell holds depends on its keys only. -/
theorem foldl_tally {table : ρ → γ → Nat} (recorded : List (κ × Nat)) {row : ρ} {col : γ}
    (hcap : table row col ≤ cap) :
    recorded.foldl (tally column cap) table row col =
      min (table row col + countOf (column row · = col) recorded) cap := by
  induction recorded generalizing table with
  | nil => exact (min_eq_left hcap).symm
  | cons entry recorded ih =>
      rw [List.foldl_cons, ih]
      · simp only [tally, countOf]
        split
        · omega
        · rfl
      · unfold tally
        split
        · exact min_le_right _ _
        · exact hcap

/-- The number that the cells of a key give for it. -/
def IsEstimate (recorded : List (κ × Nat)) (key : κ) (estimate : Nat) : Prop :=
  IsLeast (Set.range fun row =>
    min (countOf (fun other => column row other = column row key) recorded) cap) estimate

variable {column cap}

/-- Every cell of a key counts the key. -/
theorem IsEstimate.count_le [DecidableEq κ] {recorded : List (κ × Nat)} {key : κ} {estimate : Nat}
    (hestimate : IsEstimate column cap recorded key estimate) :
    min (countOf (· = key) recorded) cap ≤ estimate := by
  obtain ⟨row, rfl⟩ := hestimate.1
  apply min_le_min_right
  apply countOf_mono
  rintro _ rfl
  rfl

/-- No cell counts more than was recorded. -/
theorem IsEstimate.le_total {recorded : List (κ × Nat)} {key : κ} {estimate : Nat}
    (hestimate : IsEstimate column cap recorded key estimate) :
    estimate ≤ min (countOf (fun _ => True) recorded) cap := by
  obtain ⟨row, rfl⟩ := hestimate.1
  apply min_le_min_right
  exact countOf_mono (fun _ _ => trivial) recorded

end Table

end Onced.Foundation
