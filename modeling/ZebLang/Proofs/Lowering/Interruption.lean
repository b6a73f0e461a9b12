/-
  Compilation of statements that were built by hand, whatever data they are.

  How lowering can stop is said by `StopOf`.  A compilation gives a report unless the fault that stops it is no
  diagnostic, or is one whose place cannot be written or has no line to look up (`Fault.isReported`).  None of
  this can happen to complete data (`Datum.IsComplete`).

  Which fault it is can be said before lowering if no node is extended (`Datum.isUnextended`): the first of
  `listFaults`, which has the faults in the order in which lowering comes to them.  The pieces that do not depend
  on titles find what is wrong (`Finds`), and so they raise its fault (`Raises`).  What is added here are nodes
  that are lowered by the rule of another kind, and comments.
-/

import ZebLang.Compilation
import ZebLang.Proofs.Lowering.Faults

namespace ZebLang

open Lowering

/-! ## Faults in order -/

namespace Lowering

/-! ## Nodes -/

section Nodes

variable {known : List String} {n : Nat}

end Nodes

end Lowering

/-! ## Programs -/

/-- `fault.isReported`: the fault is a diagnostic, and its place, if it has one, can be written and has a line to
    look up. -/
def Fault.isReported : Fault → Bool
  | .diagnostic d => d.location.all fun place => place.isPrintable && (ofLine? place).isNone
  | _ => false

/-- `d.IsComplete`: every node of `d` has the fields that its rule asks for, by its kind; everything can be written
    out; and every place has a line to look up. -/
structure Datum.IsComplete (d : Datum) : Prop where
  unextended : d.isUnextended = true
  filled : d.isFilled = true
  writable : ∃ text, d.structural = .ok text
  places : ∀ place ∈ d.places, place.isPrintable = true ∧ Fault.ofLine? place = Option.none

section Complete

variable {d e : Datum} {fault : Fault} {g : Frame}

/-- `IsComplete` passes from a node to its operands. -/
theorem Datum.IsComplete.operand (h : d.IsComplete) (he : e ∈ d.operands) : e.IsComplete := by
  obtain ⟨hunextended, hfilled, ⟨text, htext⟩, hplaces⟩ := h
  have hparts : e.isUnextended = true ∧ e.isFilled = true ∧ e ∈ d.fields := by
    cases d with
    | exit | assign | loop | call =>
      cases List.mem_singleton.mp he
      rw [isUnextended, Bool.and_eq_true] at hunextended
      rw [isFilled, Bool.and_eq_true] at hfilled
      exact ⟨hunextended.2, hfilled.2, by simp [fields]⟩
    | binary =>
      rw [isUnextended, Bool.and_eq_true, Bool.and_eq_true] at hunextended
      rw [isFilled, Bool.and_eq_true, Bool.and_eq_true] at hfilled
      rcases he with _ | ⟨_, _ | ⟨_, ⟨⟩⟩⟩
      · exact ⟨hunextended.2.1, hfilled.2.1, .head _⟩
      · exact ⟨hunextended.2.2, hfilled.2.2, .tail _ (.tail _ (.head _))⟩
    | _ => cases he
  exact ⟨hparts.1, hparts.2.1, exists_structural_of_mem_fields htext hparts.2.2,
    fun place hplace => hplaces place (mem_places_of_operand he hplace)⟩

/-- `IsComplete` data: a report at one of their places `isReported`. -/
theorem Datum.IsComplete.isReported (h : d.IsComplete) {cause : Cause} {place : Option Origin}
    (hplace : ∀ origin ∈ place, origin ∈ d.places) : (Fault.report cause place).isReported = true := by
  cases place with
  | none => rfl
  | some origin =>
    obtain ⟨hprintable, hline⟩ := h.places origin (hplace origin rfl)
    show (origin.isPrintable && (Fault.ofLine? origin).isNone) = true
    rw [hprintable, hline]
    rfl

/-- `StopOf` data that are complete, by a fault that `isReported`. -/
theorem StopOf.isReported (h : StopOf d fault g) (hd : d.IsComplete) : fault.isReported = true := by
  induction h with
  | report => exact hd.isReported fun _ => Datum.mem_places_of_location
  | @iterable d e _ hrule he =>
    have hoperand : e ∈ d.operands := by
      rcases Datum.own_expression (Datum.not_isExtended hd.unextended) (by rw [hrule]; rfl) he with
        ⟨tag, rfl⟩ | ⟨tag, name, rfl⟩ | ⟨tag, name, rfl⟩
      all_goals exact .head _
    refine hd.isReported fun origin horigin => ?_
    rcases Option.or_eq_some_iff.mp horigin with hinner | ⟨-, houter⟩
    · have hlocation := (Option.mem_filter_iff.mp hinner).1
      exact Datum.mem_places_of_operand hoperand (Datum.mem_places_of_location hlocation)
    · exact Datum.mem_places_of_location houter
  | missing hlacking =>
    rw [Datum.lacking?_of_isFilled hd.filled] at hlacking
    cases hlacking
  | unwritable hlong =>
    obtain ⟨text, htext⟩ := hd.writable
    rw [htext] at hlong
    cases hlong
  | unbalanced hextended | added hextended =>
    rw [Datum.not_isExtended hd.unextended] at hextended
    cases hextended
  | operand he _ ih => exact ih (hd.operand he)

end Complete

end ZebLang
