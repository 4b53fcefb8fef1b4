import Mathlib

/-! # Logs of chained frames

A framing writes each record as a block of symbols that may depend on a state
accumulated over the earlier records. The log of a record list is the
concatenation of its frames. Cutting a log after any number of symbols leaves
whole frames and a strict prefix of one more frame.
-/

namespace Onced.Foundation

universe u v w

variable {χ : Type u} {α : Type v} {β : Type w}

/-- How a record is written after a given chain state, and the state it leaves. -/
structure Framing (χ : Type u) (α : Type v) (β : Type w) where
  encode : χ → α → List β
  next : χ → α → χ

namespace Framing

variable (framing : Framing χ α β)

/-- The chain state after a list of records. -/
def root (start : χ) (records : List α) : χ := records.foldl framing.next start

/-- The frames of a list of records, each chained to the one before it. -/
def log : χ → List α → List β
  | _, [] => []
  | start, record :: records => framing.encode start record ++
      log (framing.next start record) records

@[simp] theorem root_nil (start : χ) : framing.root start [] = start := rfl

@[simp] theorem root_cons (start : χ) (record : α) (records : List α) :
    framing.root start (record :: records) = framing.root (framing.next start record) records := rfl

@[simp] theorem root_append (start : χ) (first second : List α) :
    framing.root start (first ++ second) = framing.root (framing.root start first) second := by
  simp [root]

@[simp] theorem log_nil (start : χ) : framing.log start [] = [] := rfl

@[simp] theorem log_cons (start : χ) (record : α) (records : List α) :
    framing.log start (record :: records) =
      framing.encode start record ++ framing.log (framing.next start record) records := rfl

@[simp] theorem log_append (start : χ) (first second : List α) :
    framing.log start (first ++ second) =
      framing.log start first ++ framing.log (framing.root start first) second := by
  induction first generalizing start with
  | nil => rfl
  | cons record first ih => simp [ih]

/-- Nothing, or a strict prefix of the frame of the next record. -/
def Torn (start : χ) (records : List α) (tail : List β) : Prop :=
  tail = [] ∨ ∃ record rest, records = record :: rest ∧
    tail <+: framing.encode start record ∧ tail ≠ framing.encode start record

/-- A cut log consists of whole frames followed by a torn one. -/
theorem exists_torn_of_cut {start : χ} {records : List α} {cut : List β}
    (hcut : cut <+: framing.log start records) :
    ∃ whole rest tail, records = whole ++ rest ∧ cut = framing.log start whole ++ tail ∧
      framing.Torn (framing.root start whole) rest tail := by
  induction records generalizing start cut with
  | nil => exact ⟨[], [], [], rfl, by simpa using hcut, Or.inl rfl⟩
  | cons record records ih =>
      rw [log_cons] at hcut
      have hframe := List.prefix_append (framing.encode start record)
        (framing.log (framing.next start record) records)
      by_cases hwhole : framing.encode start record <+: cut
      · obtain ⟨later, rfl⟩ := hwhole
        obtain ⟨whole, rest, tail, rfl, rfl, htorn⟩ :=
          ih ((List.prefix_append_right_inj _).mp hcut)
        exact ⟨record :: whole, rest, tail, rfl, by simp, htorn⟩
      · have hshort := (List.prefix_or_prefix_of_prefix hcut hframe).resolve_right hwhole
        refine ⟨[], record :: records, cut, rfl, rfl, Or.inr ⟨record, records, rfl, hshort, ?_⟩⟩
        rintro rfl
        exact hwhole (List.prefix_refl _)

end Framing

end Onced.Foundation
