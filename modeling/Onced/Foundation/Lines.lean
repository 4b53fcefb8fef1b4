import Mathlib

/-! # Lines and fields of a list

A line runs up to and including the first separator, and the last line may go without
one. A field is cut off at the first separator, and stripped of the symbols around it
that do not count.
-/

namespace Onced.Foundation

universe u

variable {α : Type u}

section Cutting

variable [DecidableEq α] (separator : α)

/-- The first line, separator included, and what comes after it. -/
def cutLine : List α → List α × List α
  | [] => ([], [])
  | symbol :: input =>
      if symbol = separator then ([symbol], input)
      else (symbol :: (cutLine input).1, (cutLine input).2)

/-- What comes before the first separator, and what comes after it. -/
def splitOnce : List α → Option (List α × List α)
  | [] => none
  | symbol :: input =>
      if symbol = separator then some ([], input)
      else (splitOnce input).map fun parts => (symbol :: parts.1, parts.2)

variable {separator} {line input rest : List α}

theorem cutLine_append (input : List α) :
    (cutLine separator input).1 ++ (cutLine separator input).2 = input := by
  induction input with
  | nil => rfl
  | cons symbol input ih =>
      unfold cutLine
      split
      · rfl
      · simp [ih]

theorem cutLine_of_not_mem (hinput : separator ∉ input) :
    cutLine separator input = (input, []) := by
  induction input with
  | nil => rfl
  | cons symbol input ih =>
      rw [List.mem_cons, not_or] at hinput
      rw [cutLine, if_neg (Ne.symm hinput.1), ih hinput.2]

theorem cutLine_terminated (hline : separator ∉ line) (rest : List α) :
    cutLine separator (line ++ separator :: rest) = (line ++ [separator], rest) := by
  induction line with
  | nil => simp [cutLine]
  | cons symbol line ih =>
      rw [List.mem_cons, not_or] at hline
      rw [List.cons_append, cutLine, if_neg (Ne.symm hline.1), ih hline.2]
      rfl

/-- A line has no separator but for the one at its end. -/
theorem cutLine_content (input : List α) : ∃ content, separator ∉ content ∧
    ((cutLine separator input).1 = content ∨
      (cutLine separator input).1 = content ++ [separator]) := by
  by_cases hmem : separator ∈ input
  · obtain ⟨content, rest, rfl, hcontent⟩ := List.eq_append_cons_of_mem hmem
    refine ⟨content, hcontent, Or.inr ?_⟩
    rw [cutLine_terminated hcontent]
  · refine ⟨input, hmem, Or.inl ?_⟩
    rw [cutLine_of_not_mem hmem]

theorem splitOnce_eq_some_iff {field : List α} :
    splitOnce separator input = some (field, rest) ↔
      input = field ++ separator :: rest ∧ separator ∉ field := by
  induction input generalizing field with
  | nil => simp [splitOnce]
  | cons symbol input ih =>
      unfold splitOnce
      split
      next hhere =>
        subst hhere
        cases field with
        | nil => simp
        | cons first field =>
            simp only [Option.some.injEq, Prod.mk.injEq, reduceCtorEq, false_and, List.cons_append,
              List.cons.injEq, List.mem_cons, not_or, false_iff, not_and]
            rintro ⟨rfl, -⟩ hfirst
            exact absurd rfl hfirst
      next hhere =>
        cases field with
        | nil => simp [hhere]
        | cons first field =>
            simp only [Option.map_eq_some_iff, Prod.mk.injEq, List.cons.injEq, Prod.exists,
              List.cons_append, List.mem_cons, not_or]
            constructor
            · rintro ⟨before, after, hsplit, ⟨rfl, rfl⟩, rfl⟩
              obtain ⟨rfl, hbefore⟩ := ih.mp hsplit
              exact ⟨⟨rfl, rfl⟩, Ne.symm hhere, hbefore⟩
            · rintro ⟨⟨rfl, rfl⟩, -, hfield⟩
              exact ⟨field, rest, ih.mpr ⟨rfl, hfield⟩, ⟨rfl, rfl⟩, rfl⟩

/-- The parts of a list are free of the separator, and the default is as well. -/
theorem getD_splitOn (input : List α) (index : Nat) :
    separator ∉ (input.splitOn separator)[index]?.getD [] ∧
      (input.splitOn separator)[index]?.getD [] ⊆ input := by
  induction input generalizing index with
  | nil => cases index <;> simp
  | cons symbol input ih =>
      rw [List.splitOn_cons_eq_if_modifyHead]
      split
      next =>
        cases index with
        | zero => simp
        | succ index =>
            obtain ⟨hfree, hsubset⟩ := ih index
            exact ⟨hfree, List.subset_cons_of_subset symbol hsubset⟩
      next hhere =>
        obtain ⟨first, parts, hparts⟩ := List.exists_cons_of_ne_nil
          (List.splitOn_ne_nil separator input)
        rw [hparts, List.modifyHead_cons]
        rw [hparts] at ih
        cases index with
        | zero =>
            obtain ⟨hfree, hsubset⟩ := ih 0
            simp only [List.getElem?_cons_zero, Option.getD_some] at hfree hsubset ⊢
            refine ⟨?_, List.cons_subset_cons symbol hsubset⟩
            rw [List.mem_cons, not_or]
            exact ⟨fun hsame => hhere (by simp [hsame]), hfree⟩
        | succ index =>
            obtain ⟨hfree, hsubset⟩ := ih (index + 1)
            exact ⟨hfree, List.subset_cons_of_subset symbol hsubset⟩

/-- A text of terminated lines is cut into just these lines. -/
theorem splitOn_terminated (separator : α) {lines : List (List α)}
    (hlines : ∀ line ∈ lines, separator ∉ line) :
    (lines.flatMap fun line => line ++ [separator]).splitOn separator = lines ++ [[]] := by
  induction lines with
  | nil => simp
  | cons line lines ih =>
      rw [List.flatMap_cons, List.append_assoc, List.singleton_append,
        List.splitOn_append_cons_self_of_not_mem (hlines line List.mem_cons_self),
        ih fun other hother => hlines other (List.mem_cons_of_mem _ hother), List.cons_append]

end Cutting

/-- Writing nothing for some of the fields is writing the others. -/
theorem flatMap_skip {β : Type u} (skips : β → Bool) (bytes : β → List α) (fields : List β) :
    (fields.flatMap fun field => if skips field then [] else bytes field) =
      (fields.filter fun field => !skips field).flatMap bytes := by
  induction fields with
  | nil => rfl
  | cons field fields ih =>
      rw [List.flatMap_cons, ih, List.filter_cons]
      cases skips field <;> simp

/-- The first part of a sequence of fields ends inside one of them, or after all of them. -/
theorem isPrefix_flatMap_append {β : Type u} {fields : List β} {bytes : β → List α}
    {taken tail : List α} (htaken : taken <+: fields.flatMap bytes ++ tail) :
    (∃ first field later part, fields = first ++ field :: later ∧
        taken = first.flatMap bytes ++ part ∧ part <+: bytes field ∧ part ≠ bytes field) ∨
      ∃ part, taken = fields.flatMap bytes ++ part ∧ part <+: tail := by
  induction fields generalizing taken with
  | nil => exact Or.inr ⟨taken, rfl, htaken⟩
  | cons field fields ih =>
      rw [List.flatMap_cons, List.append_assoc] at htaken
      by_cases hwhole : bytes field <+: taken
      · obtain ⟨taken, rfl⟩ := hwhole
        rw [List.prefix_append_right_inj] at htaken
        rcases ih htaken with ⟨first, inside, later, part, rfl, rfl, hpart⟩ | ⟨part, rfl, hpart⟩
        · exact Or.inl ⟨field :: first, inside, later, part, rfl, by simp, hpart⟩
        · exact Or.inr ⟨part, by simp, hpart⟩
      · have hinside : taken <+: bytes field :=
          (List.prefix_or_prefix_of_prefix htaken (List.prefix_append _ _)).resolve_right hwhole
        refine Or.inl ⟨[], field, fields, taken, rfl, rfl, hinside, ?_⟩
        rintro rfl
        exact hwhole (List.prefix_refl _)

section Stripping

variable {p q : α → Bool} {symbol : α} {text : List α}

/-- The list without the symbols at either end that satisfy the predicate. -/
def strip (p : α → Bool) (text : List α) : List α := (text.dropWhile p).rdropWhile p

theorem mem_of_mem_rdropWhile (hmem : symbol ∈ text.rdropWhile p) : symbol ∈ text :=
  (List.rdropWhile_prefix p text).subset hmem

theorem mem_of_mem_strip (hmem : symbol ∈ strip p text) : symbol ∈ text :=
  (List.dropWhile_suffix p).subset (mem_of_mem_rdropWhile hmem)

theorem strip_of_forall (htext : ∀ symbol ∈ text, p symbol = false) : strip p text = text := by
  have hleft : text.dropWhile p = text := by
    rw [List.dropWhile_eq_self_iff]
    intro hpos
    simp [htext _ (List.getElem_mem hpos)]
  rw [strip, hleft, List.rdropWhile_eq_self_iff]
  intro hne
  simp [htext _ (List.getLast_mem hne)]

theorem strip_cons_of_pos (hsymbol : p symbol = true) (text : List α) :
    strip p (symbol :: text) = strip p text := by
  rw [strip, List.dropWhile_cons_of_pos hsymbol, strip]

/-- What has been stripped begins and ends with symbols that count. -/
theorem dropWhile_strip (text : List α) : (strip p text).dropWhile p = strip p text := by
  rw [List.dropWhile_eq_self_iff]
  intro hpos
  obtain ⟨first, rest, hstrip⟩ : ∃ first rest, strip p text = first :: rest :=
    List.exists_cons_of_length_pos hpos
  have hhead : (text.dropWhile p).head? = some first := by
    obtain ⟨tail, htail⟩ := List.rdropWhile_prefix p (text.dropWhile p)
    rw [← htail, show (text.dropWhile p).rdropWhile p = first :: rest from hstrip]
    rfl
  have hnot := List.head?_dropWhile_not p text
  rw [hhead] at hnot
  simpa [hstrip] using hnot

theorem strip_strip (text : List α) : strip p (strip p text) = strip p text := by
  rw [strip, dropWhile_strip, strip, List.rdropWhile_idempotent]

theorem rdropWhile_append_of_forall {tail : List α} (htail : ∀ symbol ∈ tail, p symbol = true)
    (text : List α) : (text ++ tail).rdropWhile p = text.rdropWhile p := by
  induction tail using List.reverseRecOn with
  | nil => rw [List.append_nil]
  | append_singleton tail symbol ih =>
      rw [← List.append_assoc, List.rdropWhile_concat_pos _ _ _ (htail symbol (by simp))]
      exact ih fun other hother => htail other (by simp [hother])

theorem rdropWhile_append_cons (hsymbol : p symbol = false) (front text : List α) :
    (front ++ symbol :: text).rdropWhile p = front ++ symbol :: text.rdropWhile p := by
  induction text using List.reverseRecOn with
  | nil => exact List.rdropWhile_concat_neg p front symbol (by simp [hsymbol])
  | append_singleton text last ih =>
      rw [← List.cons_append, ← List.append_assoc, List.rdropWhile_concat, List.rdropWhile_concat]
      split
      · exact ih
      · simp

/-- A stripped field is not touched from the right. -/
theorem rdropWhile_of_stripped (hstripped : strip p text = text)
    (hpredicate : ∀ symbol, q symbol = true → p symbol = true) : text.rdropWhile q = text := by
  have hright : (strip p text).rdropWhile p = strip p text := List.rdropWhile_idempotent p _
  rw [hstripped, List.rdropWhile_eq_self_iff] at hright
  rw [List.rdropWhile_eq_self_iff]
  exact fun hne hq => hright hne (hpredicate _ hq)

end Stripping

end Onced.Foundation
