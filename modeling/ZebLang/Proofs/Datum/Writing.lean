/-
  Data that can be written out.

  The structural form of a datum fails for one reason only, that a number in it is too long.  It holds every
  field, so what can be written out as a whole has fields that can be written out (`Covers.field`).  The text
  of an expression or a statement leaves things out, but adds nothing: it can be written if the structural
  form can (`covers_statementText`).
-/

import ZebLang.Datum.Printer

namespace ZebLang

/-! ## Why writing fails -/

/-- `writeInt` fails with `unwritable` only. -/
theorem unwritable_of_writeInt {n : Int} {fault : Fault} (h : writeInt n = .error fault) :
    fault = .unwritable := by
  unfold writeInt at h
  split at h
  · cases h
  · cases h
    rfl

/-- A `bind` that fails does so in its first part or in what follows. -/
theorem of_bind_eq_error {α β : Type} {x : Except Fault α} {k : α → Except Fault β} {fault : Fault}
    {goal : Prop} (h : x >>= k = .error fault) (hx : x = .error fault → goal)
    (hk : ∀ a, k a = .error fault → goal) : goal := by
  cases x with
  | ok a => exact hk a h
  | error stopped =>
    cases (show (Except.error stopped : Except Fault β) = .error fault from h)
    exact hx rfl

/-- A `bind` that succeeds is two parts that succeed. -/
theorem exists_ok_of_bind {α β : Type} {x : Except Fault α} {k : α → Except Fault β} {b : β}
    (h : x >>= k = .ok b) : ∃ a, x = .ok a ∧ k a = .ok b := by
  cases x with
  | ok a => exact ⟨a, rfl, h⟩
  | error fault => cases h

namespace Datum

mutual

/-- `structural` fails with `unwritable` only: whatever is written out, only a number can be too long for
    it. -/
theorem unwritable_of_structural : (d : Datum) → ∀ {fault}, d.structural = .error fault → fault = .unwritable
  | .none | .truth _ | .real _ | .text _ | .bare _ _ | .endLoop _ => fun h => by
      rw [structural] at h
      cases h
  | .int _ => fun h => by
      rw [structural] at h
      exact unwritable_of_writeInt h
  | .list items | .program _ items => fun h => by
      rw [structural] at h
      exact of_bind_eq_error h (unwritable_of_structuralAll items) nofun
  | .exit _ e | .literal _ e | .reference _ e => fun h => by
      rw [structural] at h
      exact of_bind_eq_error h e.unwritable_of_structural nofun
  | .assign _ name e | .loop _ name e | .call _ name e => fun h => by
      rw [structural] at h
      refine of_bind_eq_error h name.unwritable_of_structural fun _ h => ?_
      exact of_bind_eq_error h e.unwritable_of_structural nofun
  | .binary _ left operator right => fun h => by
      rw [structural] at h
      refine of_bind_eq_error h left.unwritable_of_structural fun _ h => ?_
      refine of_bind_eq_error h operator.unwritable_of_structural fun _ h => ?_
      exact of_bind_eq_error h right.unwritable_of_structural nofun

theorem unwritable_of_structuralAll : (items : List Datum) → ∀ {fault},
    structuralAll items = .error fault → fault = .unwritable
  | [] => fun h => by
      rw [structuralAll] at h
      cases h
  | d :: rest => fun h => by
      rw [structuralAll] at h
      refine of_bind_eq_error h d.unwritable_of_structural fun _ h => ?_
      exact of_bind_eq_error h (unwritable_of_structuralAll rest) nofun

end

/-! ## Fields -/

/-- `d.fields`: the fields of a statement or an expression. -/
def fields : Datum → List Datum
  | .exit _ e | .literal _ e | .reference _ e => [e]
  | .assign _ name e | .loop _ name e | .call _ name e => [name, e]
  | .binary _ left operator right => [left, operator, right]
  | _ => []

/-- `structural` succeeds on the `fields` of a datum on which it succeeds. -/
theorem exists_structural_of_mem_fields {d x : Datum} {text : String} (h : d.structural = .ok text)
    (hx : x ∈ d.fields) : ∃ written, x.structural = .ok written := by
  cases d with
  | exit _ e | literal _ e | reference _ e =>
    rw [structural] at h
    obtain ⟨written, hwritten, -⟩ := exists_ok_of_bind h
    cases List.mem_singleton.mp hx
    exact ⟨written, hwritten⟩
  | assign _ name e | loop _ name e | call _ name e =>
    rw [structural] at h
    obtain ⟨first, hfirst, h⟩ := exists_ok_of_bind h
    obtain ⟨second, hsecond, -⟩ := exists_ok_of_bind h
    rcases hx with _ | ⟨_, _ | ⟨_, ⟨⟩⟩⟩
    · exact ⟨first, hfirst⟩
    · exact ⟨second, hsecond⟩
  | binary _ left operator right =>
    rw [structural] at h
    obtain ⟨first, hfirst, h⟩ := exists_ok_of_bind h
    obtain ⟨second, hsecond, h⟩ := exists_ok_of_bind h
    obtain ⟨third, hthird, -⟩ := exists_ok_of_bind h
    rcases hx with _ | ⟨_, _ | ⟨_, _ | ⟨_, ⟨⟩⟩⟩⟩
    · exact ⟨first, hfirst⟩
    · exact ⟨second, hsecond⟩
    · exact ⟨third, hthird⟩
  | _ => cases hx

/-- `d.Covers x`: `x` fails only with `unwritable`, and only if `d.structural` fails. -/
def Covers {α : Type} (d : Datum) (x : Except Fault α) : Prop :=
  ∀ fault, x = .error fault → fault = .unwritable ∧ d.structural = .error .unwritable

/-- `structural` covers itself. -/
theorem covers_structural (d : Datum) : d.Covers d.structural := by
  intro fault h
  cases d.unwritable_of_structural h
  exact ⟨rfl, h⟩

theorem covers_ok {α : Type} (d : Datum) (a : α) : d.Covers (.ok a) := by
  intro fault h
  cases h

/-- `Covers` passes from a field to the whole. -/
theorem Covers.field {α : Type} {d e : Datum} {x : Except Fault α} (hx : e.Covers x) (he : e ∈ d.fields) :
    d.Covers x := by
  intro fault h
  obtain ⟨hfault, hlong⟩ := hx fault h
  refine ⟨hfault, ?_⟩
  cases hwhole : d.structural with
  | ok text =>
    obtain ⟨written, hwritten⟩ := exists_structural_of_mem_fields hwhole he
    rw [hwritten] at hlong
    cases hlong
  | error stopped => rw [d.unwritable_of_structural hwhole]

/-- `Covers` composes along `bind`. -/
theorem Covers.bind {α β : Type} {d : Datum} {x : Except Fault α} {k : α → Except Fault β} (hx : d.Covers x)
    (hk : ∀ a, d.Covers (k a)) : d.Covers (x >>= k) := by
  intro fault h
  exact of_bind_eq_error h (hx fault) fun a => hk a fault

/-- `plain` fails only where `structural` does. -/
theorem covers_plain (d : Datum) : d.Covers d.plain := by
  cases d with
  | text value => exact covers_ok _ _
  | _ => exact covers_structural _

/-- `expressionText` fails only where `structural` does. -/
theorem covers_expressionText (d : Datum) : d.Covers d.expressionText := by
  induction d using expressionText.induct with
  | case1 => exact covers_ok _ _
  | case2 tag value => exact (covers_plain value).field (.head _)
  | case3 tag name => exact (covers_plain name).field (.head _)
  | case4 tag left operator right ihleft ihright =>
    rw [expressionText]
    refine (ihleft.field (by simp [fields])).bind fun _ => ?_
    refine ((covers_plain operator).field (by simp [fields])).bind fun _ => ?_
    exact (ihright.field (by simp [fields])).bind fun _ => covers_ok _ _
  | case5 tag name argument ih =>
    rw [expressionText]
    refine ((covers_plain name).field (by simp [fields])).bind fun _ => ?_
    exact (ih.field (by simp [fields])).bind fun _ => covers_ok _ _
  | case6 d =>
    rw [expressionText]
    · exact covers_ok _ _
    all_goals assumption

/-- `statementText` fails only where `structural` does: a statement that can be written out can be shown in
    a comment. -/
theorem covers_statementText (d : Datum) : d.Covers d.statementText := by
  cases d with
  | exit tag e => exact ((covers_expressionText e).field (.head _)).bind fun _ => covers_ok _ _
  | assign tag name e | loop tag name e =>
    refine ((covers_plain name).field (.head _)).bind fun _ => ?_
    exact ((covers_expressionText e).field (.tail _ (.head _))).bind fun _ => covers_ok _ _
  | _ => exact covers_ok _ _

end Datum

end ZebLang
