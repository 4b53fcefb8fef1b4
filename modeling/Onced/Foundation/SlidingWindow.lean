import Mathlib

/-! # Sliding windows over a log of times

Time is cut into windows of one width. A time is weighed by the hits of its own window
and by those of the window before, in proportion to how much of that window is less
than a width ago, and it is admitted if the log that ends with it weighs no more than
the limit. Refused times stay in the log.
-/

namespace Onced.Foundation.SlidingWindow

/-- The hits in the window `index`. -/
def hits (width : Nat) (log : List Nat) (index : Nat) : Nat :=
  log.countP fun time => time / width = index

/-- The hits in the window just before `index`. -/
def hitsBefore (width : Nat) (log : List Nat) (index : Nat) : Nat :=
  log.countP fun time => time / width + 1 = index

/-- The hits of the last `width` instants. -/
def trailing (width : Nat) (log : List Nat) (now : Nat) : Nat :=
  log.countP fun time => now < time + width ∧ time ≤ now

/-- Those of them that lie in the window before. -/
def trailingBefore (width : Nat) (log : List Nat) (now : Nat) : Nat :=
  log.countP fun time => time / width + 1 = now / width ∧ now < time + width

/-- The weight of a log at `now`, scaled by the width. -/
def weight (width : Nat) (log : List Nat) (now : Nat) : Nat :=
  hits width log (now / width) * width + hitsBefore width log (now / width) * (width - now % width)

/-- How a weighted estimate stands to the hits of the last `width` instants. -/
structure Approximates (width : Nat) (log : List Nat) (now : Nat) (estimate : ℚ) : Prop where
  /-- It covers them exactly if the late hits of the window before are no more than its share. -/
  covers : (trailing width log now : ℚ) ≤ estimate ↔
    trailingBefore width log now * width ≤
      hitsBefore width log (now / width) * (width - now % width)
  /-- It falls short by the share that is weighted away at most. -/
  within : (trailing width log now : ℚ) ≤
    estimate + hitsBefore width log (now / width) * ((now % width : Nat) / (width : ℚ))

/-- The times that are admitted after a log. -/
def admittedAfter (width limit : Nat) (log : List Nat) : List Nat → List Nat
  | [] => []
  | now :: times =>
      let admitted := admittedAfter width limit (log ++ [now]) times
      if weight width (log ++ [now]) now ≤ limit * width then now :: admitted else admitted

def admitted (width limit : Nat) (times : List Nat) : List Nat := admittedAfter width limit [] times

section Counts

variable {width : Nat} {log : List Nat} {now : Nat}

theorem hits_append (log : List Nat) (now index : Nat) :
    hits width (log ++ [now]) index =
      hits width log index + if now / width = index then 1 else 0 := by
  simp [hits, List.countP_append, List.countP_cons]

theorem hitsBefore_append (log : List Nat) (now index : Nat) :
    hitsBefore width (log ++ [now]) index =
      hitsBefore width log index + if now / width + 1 = index then 1 else 0 := by
  simp [hitsBefore, List.countP_append, List.countP_cons]

theorem hitsBefore_succ (log : List Nat) (index : Nat) :
    hitsBefore width log (index + 1) = hits width log index := by
  simp [hitsBefore, hits]

/-- In a log kept in order nothing is later than its last time. -/
theorem le_last (hsorted : (log ++ [now]).Pairwise (· ≤ ·)) :
    ∀ time ∈ log ++ [now], time ≤ now := by
  intro time htime
  rcases List.mem_append.mp htime with hmem | hmem
  · exact (List.pairwise_append.mp hsorted).2.2 time hmem now List.mem_cons_self
  · exact (List.mem_singleton.mp hmem).le

/-- Nothing has been hit in a window that lies ahead. -/
theorem hits_eq_zero {index : Nat} (hahead : ∀ time ∈ log, time / width < index) :
    hits width log index = 0 := by
  refine List.countP_eq_zero.mpr fun time htime => ?_
  have := hahead time htime
  simp only [decide_eq_true_eq]
  omega

theorem hitsBefore_eq_zero {index : Nat} (hahead : ∀ time ∈ log, time / width + 1 < index) :
    hitsBefore width log index = 0 := by
  refine List.countP_eq_zero.mpr fun time htime => ?_
  have := hahead time htime
  simp only [decide_eq_true_eq]
  omega

theorem hitsBefore_lt {bound : Nat} (hbound : ∀ index, hits width log index < bound) (index : Nat) :
    hitsBefore width log index < bound := by
  cases index with
  | zero =>
      have hzero : hitsBefore width log 0 = 0 := by simp [hitsBefore]
      rw [hzero]
      exact Nat.zero_lt_of_lt (hbound 0)
  | succ index =>
      rw [hitsBefore_succ]
      exact hbound index

theorem hits_eq_countP_interval (hwidth : 0 < width) (log : List Nat) (index : Nat) :
    hits width log index =
      log.countP fun time => index * width ≤ time ∧ time < (index + 1) * width := by
  refine List.countP_congr fun time _ => ?_
  simp only [decide_eq_true_eq, Nat.div_eq_iff hwidth, Nat.add_mul, Nat.one_mul]
  omega

theorem trailingBefore_le (width : Nat) (log : List Nat) (now : Nat) :
    trailingBefore width log now ≤ hitsBefore width log (now / width) := by
  refine List.countP_mono_left fun time _ htime => ?_
  simp only [decide_eq_true_eq] at htime ⊢
  exact htime.1

/-- The last `width` instants reach back into the window before, and no further. -/
theorem trailing_eq (hwidth : 0 < width) (hpast : ∀ time ∈ log, time ≤ now) :
    trailing width log now = hits width log (now / width) + trailingBefore width log now := by
  induction log with
  | nil => rfl
  | cons time log ih =>
      have hle := hpast time List.mem_cons_self
      have hrest := ih fun other hother => hpast other (List.mem_cons_of_mem _ hother)
      simp only [trailing, hits, trailingBefore, List.countP_cons, decide_eq_true_eq] at hrest ⊢
      have hsplit : (now < time + width ∧ time ≤ now) ↔
          (time / width = now / width ∨ time / width + 1 = now / width ∧ now < time + width) := by
        have htime := Nat.div_add_mod time width
        have hnow := Nat.div_add_mod now width
        have htimeLt := Nat.mod_lt time hwidth
        have hnowLt := Nat.mod_lt now hwidth
        have hmono := Nat.div_le_div_right (c := width) hle
        constructor
        · rintro ⟨hlate, -⟩
          by_contra hneither
          have hfar : time / width + 2 ≤ now / width := by omega
          have := Nat.mul_le_mul_left width hfar
          rw [Nat.mul_add] at this
          omega
        · rintro (hsame | ⟨-, hlate⟩)
          · rw [hsame] at htime
            omega
          · exact ⟨hlate, hle⟩
      have hexclusive : time / width = now / width →
          ¬ (time / width + 1 = now / width ∧ now < time + width) := by omega
      simp only [hsplit]
      split_ifs <;> omega

/-- An interval as long as a window meets two windows at most. -/
theorem countP_interval_le (hwidth : 0 < width) (log : List Nat) (start : Nat) :
    log.countP (fun time => start ≤ time ∧ time < start + width) ≤
      hits width log (start / width) + hits width log (start / width + 1) := by
  induction log with
  | nil => exact Nat.zero_le _
  | cons time log ih =>
      simp only [hits, List.countP_cons, decide_eq_true_eq] at ih ⊢
      have hmeets : start ≤ time ∧ time < start + width →
          time / width = start / width ∨ time / width = start / width + 1 := by
        rintro ⟨hfrom, hto⟩
        have hlow := Nat.div_le_div_right (c := width) hfrom
        have hhigh := Nat.div_le_div_right (c := width) (Nat.le_of_lt hto)
        rw [Nat.add_div_right _ hwidth] at hhigh
        omega
      split_ifs <;> omega

theorem approximates_of_weight (hwidth : 0 < width) (hpast : ∀ time ∈ log, time ≤ now)
    {estimate : ℚ}
    (hestimate : estimate * width = weight width log now) :
    Approximates width log now estimate := by
  have hpos : (0 : ℚ) < width := Nat.cast_pos.mpr hwidth
  have htrailing := trailing_eq hwidth hpast
  constructor
  · rw [← mul_le_mul_iff_left₀ hpos, hestimate, htrailing, weight]
    norm_cast
    rw [Nat.add_mul, Nat.add_le_add_iff_left]
  · have hshares : (width - now % width) + now % width = width :=
      Nat.sub_add_cancel (Nat.mod_lt now hwidth).le
    have hshare : hits width log (now / width) * width + trailingBefore width log now * width ≤
        weight width log now + hitsBefore width log (now / width) * (now % width) := by
      rw [weight, Nat.add_assoc, ← Nat.mul_add, hshares]
      exact Nat.add_le_add_left (Nat.mul_le_mul_right _ (trailingBefore_le width log now)) _
    rw [← mul_le_mul_iff_left₀ hpos, add_mul, hestimate, mul_assoc, div_mul_cancel₀ _ hpos.ne',
      htrailing]
    norm_cast
    rwa [Nat.add_mul]

end Counts

section Admission

variable {width limit : Nat}

theorem admittedAfter_append (log times : List Nat) (now : Nat) :
    admittedAfter width limit log (times ++ [now]) = admittedAfter width limit log times ++
      if weight width (log ++ times ++ [now]) now ≤ limit * width then [now] else [] := by
  induction times generalizing log with
  | nil =>
      simp only [List.nil_append, admittedAfter, List.append_nil]
  | cons time times ih =>
      simp only [List.cons_append, admittedAfter, ih, List.append_assoc, List.nil_append]
      split <;> rfl

theorem admitted_append (times : List Nat) (now : Nat) :
    admitted width limit (times ++ [now]) = admitted width limit times ++
      if weight width (times ++ [now]) now ≤ limit * width then [now] else [] := by
  rw [admitted, admittedAfter_append, List.nil_append]
  rfl

theorem admitted_sublist (times : List Nat) : (admitted width limit times).Sublist times := by
  induction times using List.reverseRecOn with
  | nil => exact .slnil
  | append_singleton times now ih =>
      rw [admitted_append]
      split
      next => exact ih.append (.refl _)
      next => exact ih.append (List.nil_sublist _)

theorem hits_admitted_le_hits (width limit : Nat) (times : List Nat) (index : Nat) :
    hits width (admitted width limit times) index ≤ hits width times index :=
  (admitted_sublist times).countP_le

/-- No window admits more than the limit. -/
theorem hits_admitted_le (hwidth : 0 < width) (limit : Nat) (times : List Nat) (index : Nat) :
    hits width (admitted width limit times) index ≤ limit := by
  induction times using List.reverseRecOn with
  | nil => exact Nat.zero_le _
  | append_singleton times now ih =>
      by_cases hadmitted : weight width (times ++ [now]) now ≤ limit * width
      · by_cases hindex : now / width = index
        -- the hits of the window, refused ones included, were within the limit at `now`
        · subst hindex
          have hhits := hits_admitted_le_hits width limit (times ++ [now]) (now / width)
          refine hhits.trans (Nat.le_of_mul_le_mul_right ?_ hwidth)
          exact (Nat.le_add_right _ _).trans hadmitted
        · rw [admitted_append, if_pos hadmitted, hits_append, if_neg hindex]
          exact ih
      · rw [admitted_append, if_neg hadmitted, List.append_nil]
        exact ih

/-- At a time that is admitted, the hits of its window and what the window before has
admitted are fewer than twice the limit. -/
theorem hits_add_hits_admitted_lt (hwidth : 0 < width) (hlimit : 0 < limit) {times : List Nat}
    {now index : Nat} (hindex : now / width = index + 1)
    (hadmitted : weight width times now ≤ limit * width) :
    hits width (admitted width limit times) index + hits width times (index + 1) < 2 * limit := by
  have hbefore := hits_admitted_le hwidth limit times index
  have hfewer := hits_admitted_le_hits width limit times index
  simp only [weight, hindex, hitsBefore_succ] at hadmitted
  generalize hits width (admitted width limit times) index = before at hbefore hfewer ⊢
  generalize hits width times (index + 1) = current at hadmitted ⊢
  have hcurrent : current ≤ limit :=
    Nat.le_of_mul_le_mul_right ((Nat.le_add_right _ _).trans hadmitted) hwidth
  rcases Nat.eq_zero_or_pos before with rfl | hpos
  · omega
  · have hweight : 0 < hits width times index * (width - now % width) :=
      Nat.mul_pos (by omega) (Nat.sub_pos_of_lt (Nat.mod_lt now hwidth))
    have hlt : current < limit := Nat.lt_of_mul_lt_mul_right (a := width) (by omega)
    omega

/-- No interval as long as a window admits twice the limit. -/
theorem countP_admitted_lt (hwidth : 0 < width) (hlimit : 0 < limit) {times : List Nat}
    (hsorted : times.Pairwise (· ≤ ·)) (start : Nat) :
    (admitted width limit times).countP (fun time => start ≤ time ∧ time < start + width) <
      2 * limit := by
  induction times using List.reverseRecOn with
  | nil => exact Nat.mul_pos Nat.two_pos hlimit
  | append_singleton times now ih =>
      have hearlier := ih (List.pairwise_append.mp hsorted).1
      by_cases hadmitted : weight width (times ++ [now]) now ≤ limit * width ∧
          start ≤ now ∧ now < start + width
      · obtain ⟨hweight, hfrom, hto⟩ := hadmitted
        have hinterval := countP_interval_le hwidth (admitted width limit (times ++ [now])) start
        have hlow := Nat.div_le_div_right (c := width) hfrom
        have hhigh := Nat.div_le_div_right (c := width) (Nat.le_of_lt hto)
        rw [Nat.add_div_right _ hwidth] at hhigh
        by_cases hindex : now / width = start / width + 1
        · have hfewer := hits_admitted_le_hits width limit (times ++ [now]) (start / width + 1)
          have := hits_add_hits_admitted_lt hwidth hlimit hindex hweight
          omega
        -- no time so far lies beyond the window of `now`
        · have hahead : hits width (admitted width limit (times ++ [now])) (start / width + 1) =
            0 := by
            refine hits_eq_zero fun time htime => ?_
            have hle := le_last hsorted time ((admitted_sublist _).subset htime)
            have := Nat.div_le_div_right (c := width) hle
            omega
          have := hits_admitted_le hwidth limit (times ++ [now]) (start / width)
          omega
      · rw [admitted_append, List.countP_append]
        have hlast :
            (if weight width (times ++ [now]) now ≤ limit * width then [now] else []).countP
              (fun time => start ≤ time ∧ time < start + width) = 0 := by
          split
          next hweight =>
            refine List.countP_eq_zero.mpr fun time htime => ?_
            obtain rfl := List.mem_singleton.mp htime
            simpa using fun hfrom => Nat.le_of_not_lt fun hto => hadmitted ⟨hweight, hfrom, hto⟩
          next => rfl
        omega

end Admission

end Onced.Foundation.SlidingWindow
