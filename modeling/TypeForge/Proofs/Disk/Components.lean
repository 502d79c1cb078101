import TypeForge.Proofs.Disk.Listings

/-!
# The components of paths and their order

Paths are compared component by component.  The order of components is total, and so is that of
their lists; paths that are equal in it have the same components.  A path that is made by joining
names to a directory's path has these names as its last components, so it is told by them from
every other path made from the same directory.
-/

namespace TypeForge

namespace Path

/-! ## The order of paths -/

/-- The text of a component, if it is a name. -/
def Component.label : Component → String
  | .name text => text
  | _ => ""

theorem Component.compare_eq :
    Component.compare = compareLex (compareOn Component.rank) (compareOn Component.label) := by
  funext a b
  cases a <;> cases b <;> rfl

instance : Std.TransCmp Component.compare := by
  rw [Component.compare_eq]
  infer_instance

instance : Std.LawfulEqCmp Component.compare where
  eq_of_compare {a b} h := by
    cases a <;> cases b <;> simp_all [Component.compare, Component.rank]

theorem compareComponents_eq : compareComponents = List.compareLex Component.compare := by
  funext as bs
  induction as generalizing bs with
  | nil => cases bs <;> rfl
  | cons a as ih =>
    cases bs with
    | nil => rfl
    | cons b bs => rw [compareComponents, List.compareLex_cons_cons, ih]

instance : Std.TransCmp compareComponents := by
  rw [compareComponents_eq]
  infer_instance

instance : Std.LawfulEqCmp compareComponents := by
  rw [compareComponents_eq]
  infer_instance

theorem compare_trans (p q r : Path) (h : (p.compare q).isLE = true) (h' : (q.compare r).isLE = true) :
    (p.compare r).isLE = true := by
  unfold Path.compare at h h' ⊢
  exact Std.TransCmp.isLE_trans h h'

theorem compare_swap (p q : Path) : q.compare p = (p.compare q).swap := by
  unfold Path.compare
  exact Std.OrientedCmp.eq_swap

theorem compare_total (p q : Path) : ((p.compare q).isLE || (q.compare p).isLE) = true := by
  rw [p.compare_swap q]
  cases p.compare q <;> rfl

/-- A path does not come before one that comes before it. -/
theorem compare_asymm {p q : Path} (h : p.compare q = .lt) : q.compare p ≠ .lt := by
  rw [p.compare_swap q, h]
  exact Ordering.noConfusion

/-- Paths with different components are not equal in the order. -/
theorem compare_eq_lt {p q : Path} (h : (p.compare q).isLE = true) (hne : p.components ≠ q.components) :
    p.compare q = .lt := by
  cases hcompare : p.compare q with
  | lt => rfl
  | eq =>
    unfold Path.compare at hcompare
    exact absurd (Std.LawfulEqCmp.eq_of_compare hcompare) hne
  | gt =>
    rw [hcompare] at h
    cases h

/-! ## Joined paths -/

theorem componentOf?_of_isName {name : String} (h : IsName name) : componentOf? name = some (.name name) := by
  rw [componentOf?, if_neg (not_or.2 ⟨h.ne_empty, h.ne_dot⟩), if_neg h.ne_dots]

theorem segments_ne_nil (p : Path) : p.segments ≠ [] := by
  rw [segments, Ne, List.map_eq_nil_iff]
  exact piecesBetween_ne_nil _ _

theorem piecesBetween_eq_singleton_nil_iff {separator : Char} {cs : List Char} :
    piecesBetween separator cs = [[]] ↔ cs = [] := by
  constructor
  · intro h
    cases cs with
    | nil => rfl
    | cons c cs =>
      rw [piecesBetween] at h
      split at h
      · exact absurd (List.cons.inj h).2 (piecesBetween_ne_nil _ _)
      · split at h <;> cases h
  · rintro rfl
    rfl

theorem text_eq_empty_of_segments {p : Path} (h : p.segments = [""]) : p.text = "" := by
  obtain ⟨piece, hpieces, hpiece⟩ := List.map_eq_singleton_iff.1 h
  rw [String.ofList_eq_empty_iff.1 hpiece, piecesBetween_eq_singleton_nil_iff] at hpieces
  exact String.toList_eq_nil_iff.1 hpieces

/-- The components of a path with the given segments behind its first one. -/
theorem components_of_segments {p : Path} {first : String} {rest : List String} (h : p.segments = first :: rest) :
    p.components = (if p.isAbsolute then [.root] else if first = "." then [.here]
      else (componentOf? first).toList) ++ rest.filterMap componentOf? := by
  rw [components, h]

/-- A name that is joined to a path is its last component. -/
theorem components_join {p : Path} {name : String} (htext : p.text ≠ "") (hname : IsName name) :
    (p.join name).components = p.components ++ [.name name] := by
  obtain ⟨way, hjoin, hsegments⟩ := segments_join htext hname.no_slash
  cases way with
  | nil =>
    obtain hsegments | hsegments := hsegments
    · exact absurd hsegments p.segments_ne_nil
    · exact absurd (text_eq_empty_of_segments hsegments) htext
  | cons first rest =>
    rw [List.cons_append] at hjoin hsegments
    rw [components_of_segments hjoin, isAbsolute_join name htext, List.filterMap_append,
      List.filterMap_cons_some (componentOf?_of_isName hname), List.filterMap_nil, ← List.append_assoc]
    congr 1
    obtain hsegments | hsegments := hsegments
    · rw [components_of_segments hsegments]
    · rw [components_of_segments hsegments, List.filterMap_append]
      simp [componentOf?]

theorem text_join_ne_empty {p : Path} (name : String) (htext : p.text ≠ "") : (p.join name).text ≠ "" := by
  obtain ⟨suffix, hsuffix⟩ := join_text name htext
  rw [hsuffix]
  exact fun h => htext (String.append_eq_empty_iff.1 h).1

/-- The path of what the names lead to from the directory at `base`. -/
def joined (base : Path) (names : List String) : Path := names.foldl join base

@[simp] theorem joined_cons (base : Path) (name : String) (names : List String) :
    base.joined (name :: names) = (base.join name).joined names := rfl

@[simp] theorem joined_nil (base : Path) : base.joined [] = base := rfl

/-- **Names that are joined to a path are its last components.** -/
theorem components_joined {base : Path} {names : List String} (htext : base.text ≠ "")
    (hnames : ∀ name ∈ names, IsName name) :
    (base.joined names).components = base.components ++ names.map .name := by
  induction names generalizing base with
  | nil => simp
  | cons name names ih =>
    rw [joined_cons, ih (text_join_ne_empty name htext) fun n hn => hnames n (List.mem_cons_of_mem _ hn),
      components_join htext (hnames name List.mem_cons_self)]
    simp

/-! ## Extensions -/

theorem extensionOf?_of_notMem {name : String} (h : '.' ∉ name.toList) : extensionOf? name = none := by
  rw [extensionOf?, piecesBetween_of_notMem h]
  rfl

/-- A name that is cut at its last dot. -/
theorem extensionOf?_append {stem extension : List Char} (h : '.' ∉ extension) :
    extensionOf? (String.ofList (stem ++ '.' :: extension)) =
      if stem = [] then none else some (String.ofList extension) := by
  rw [extensionOf?, String.toList_ofList, piecesBetween_append_cons, piecesBetween_of_notMem h,
    List.reverse_append]
  cases hpieces : (piecesBetween '.' stem).reverse with
  | nil => exact absurd (List.reverse_eq_nil_iff.1 hpieces) (piecesBetween_ne_nil _ _)
  | cons before more =>
    have hempty : before = [] ∧ more = [] ↔ stem = [] := by
      have hstem : piecesBetween '.' stem = [[]] ↔ stem = [] := piecesBetween_eq_singleton_nil_iff
      rw [← hstem, ← List.reverse_reverse (piecesBetween '.' stem), hpieces, List.reverse_eq_iff]
      simp
    simp only [List.reverse_cons, List.reverse_nil, List.nil_append, List.singleton_append, hempty]

/-- **The extension of a name** is what stands behind its last dot, if something stands in front of
that dot. -/
theorem extensionOf?_eq_some_iff {name extension : String} :
    extensionOf? name = some extension ↔
      '.' ∉ extension.toList ∧ ∃ stem, stem ≠ "" ∧ name = stem ++ "." ++ extension := by
  constructor
  · intro h
    by_cases hdot : '.' ∈ name.toList
    · -- the last dot is the first one from behind
      obtain ⟨behind, front, hreverse, hbehind⟩ := List.eq_append_cons_of_mem (List.mem_reverse.2 hdot)
      have hname : name = String.ofList (front.reverse ++ '.' :: behind.reverse) := by
        rw [← String.ofList_toList (s := name), ← List.reverse_reverse name.toList, hreverse]
        simp
      have hbehind' : '.' ∉ behind.reverse := by simpa using hbehind
      rw [hname, extensionOf?_append hbehind'] at h
      split at h
      · cases h
      · next hfront =>
        cases h
        refine ⟨by simpa using hbehind, String.ofList front.reverse, ?_, ?_⟩
        · exact fun hempty => hfront (String.ofList_eq_empty_iff.1 hempty)
        · rw [hname]
          apply String.toList_injective
          simp
    · rw [extensionOf?_of_notMem hdot] at h
      cases h
  · rintro ⟨hdot, stem, hstem, rfl⟩
    have hname : stem ++ "." ++ extension = String.ofList (stem.toList ++ '.' :: extension.toList) := by
      apply String.toList_injective
      simp
    rw [hname, extensionOf?_append hdot, if_neg, String.ofList_toList]
    exact fun h => hstem (String.toList_eq_nil_iff.1 h)

end Path

end TypeForge
