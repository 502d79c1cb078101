import TypeForge.Ast.Outline
import TypeForge.Proofs.Token.Words

/-!
# Rendered outlines

The text of an outline shows which line stands below which by indentation alone.  Where no line is
empty, starts with a blank or holds a line break, that is enough: the children of a line are over
where the text is, or where a line is indented less than they are.
-/

namespace TypeForge

/-- Whether a text can be a line of an outline: it starts with something else than a blank, and it
holds no line break. -/
structure IsLine (line : String) : Prop where
  head : ∃ c cs, line.toList = c :: cs ∧ c ≠ ' '
  newline : '\n' ∉ line.toList

namespace Outline

mutual

/-- All lines of an outline can be lines. -/
def Tidy : Outline → Prop
  | node line children => IsLine line ∧ TidyAll children

/-- All lines of neighbouring outlines can be lines. -/
def TidyAll : List Outline → Prop
  | [] => True
  | o :: os => o.Tidy ∧ TidyAll os

end

/-- A text that is over, or goes on with a line indented less than lines at the given depth. -/
def Leaves (depth : Nat) (text : List Char) : Prop :=
  text = [] ∨ (text.takeWhile (· == ' ')).length < 2 * depth

theorem not_leaves_indented (depth : Nat) (c : Char) (text : List Char) :
    ¬ Leaves depth (List.replicate (2 * depth) ' ' ++ c :: text) := by
  rintro (h | h)
  · exact absurd h (List.append_ne_nil_of_right_ne_nil _ (List.cons_ne_nil c text))
  · rw [List.takeWhile_append_of_pos (by simp), List.length_append, List.length_replicate] at h
    omega

theorem leaves_indented {depth : Nat} {c : Char} (hc : c ≠ ' ') (text : List Char) :
    Leaves (depth + 1) (List.replicate (2 * depth) ' ' ++ c :: text) := by
  refine .inr ?_
  rw [List.takeWhile_append_of_pos (by simp), List.takeWhile_cons_of_neg (by simpa using hc),
    List.append_nil, List.length_replicate]
  omega

theorem renderAllAt_cons_append (depth : Nat) (line : String) (children os : List Outline) (rest : List Char) :
    (renderAllAt depth (node line children :: os)).toList ++ rest =
      List.replicate (2 * depth) ' ' ++ (line.toList ++ '\n' ::
        ((renderAllAt (depth + 1) children).toList ++ ((renderAllAt depth os).toList ++ rest))) := by
  simp [renderAllAt, renderAt, indent, String.toList_append]

theorem renderAllAt_nil_append (depth : Nat) (rest : List Char) :
    (renderAllAt depth []).toList ++ rest = rest := by
  rw [renderAllAt, String.toList_empty, List.nil_append]

/-- A line at some depth does not leave that depth. -/
theorem not_leaves_renderAllAt {depth : Nat} {o : Outline} {os : List Outline} (hos : TidyAll (o :: os))
    (rest : List Char) : ¬ Leaves depth ((renderAllAt depth (o :: os)).toList ++ rest) := by
  obtain ⟨line, children⟩ := o
  obtain ⟨c, cs, hline, -⟩ := hos.1.1.head
  rw [renderAllAt_cons_append, hline]
  exact not_leaves_indented depth c _

/-- What follows the children of a line is indented less than they are. -/
theorem leaves_renderAllAt {depth : Nat} {os : List Outline} (hos : TidyAll os) {rest : List Char}
    (hrest : Leaves depth rest) : Leaves (depth + 1) ((renderAllAt depth os).toList ++ rest) := by
  cases os with
  | nil =>
    rw [renderAllAt_nil_append]
    exact hrest.imp_right fun h => by omega
  | cons o os =>
    obtain ⟨line, children⟩ := o
    obtain ⟨c, cs, hline, hc⟩ := hos.1.1.head
    rw [renderAllAt_cons_append, hline]
    exact leaves_indented hc _

/-- **Neighbouring outlines can be told from what follows them**, if it does not look like one more
of their lines. -/
theorem renderAllAt_append_inj : ∀ {os os' : List Outline} {depth : Nat} {rest rest' : List Char},
    TidyAll os → TidyAll os' → Leaves depth rest → Leaves depth rest' →
    (renderAllAt depth os).toList ++ rest = (renderAllAt depth os').toList ++ rest' →
    os = os' ∧ rest = rest'
  | [], [], _, _, _, _, _, _, _, h => by
    rw [renderAllAt_nil_append, renderAllAt_nil_append] at h
    exact ⟨rfl, h⟩
  | [], o :: os, _, _, rest', _, hos, hrest, _, h => by
    rw [renderAllAt_nil_append] at h
    exact absurd (h ▸ hrest) (not_leaves_renderAllAt hos rest')
  | o :: os, [], _, rest, _, hos, _, _, hrest', h => by
    rw [renderAllAt_nil_append] at h
    exact absurd (h ▸ hrest') (not_leaves_renderAllAt hos rest)
  | node line children :: os, node line' children' :: os', depth, rest, rest', hos, hos', hrest, hrest', h => by
    rw [renderAllAt_cons_append, renderAllAt_cons_append, List.append_cancel_left_eq] at h
    obtain ⟨hline, hbelow⟩ := append_mark_inj hos.1.1.newline hos'.1.1.newline h
    obtain ⟨rfl, hbehind⟩ := renderAllAt_append_inj hos.1.2 hos'.1.2 (leaves_renderAllAt hos.2 hrest)
      (leaves_renderAllAt hos'.2 hrest') hbelow
    obtain ⟨rfl, rfl⟩ := renderAllAt_append_inj hos.2 hos'.2 hrest hrest' hbehind
    rw [String.toList_inj.1 hline]
    exact ⟨rfl, rfl⟩

/-- **Different outlines have different texts.** -/
theorem renderAllAt_inj {depth : Nat} {os os' : List Outline} (hos : TidyAll os) (hos' : TidyAll os')
    (h : renderAllAt depth os = renderAllAt depth os') : os = os' := by
  have hnil : Leaves depth [] := .inl rfl
  refine (renderAllAt_append_inj hos hos' hnil hnil ?_).1
  rw [h]

end Outline

end TypeForge
