import TypeForge.Proofs.Output.Text

/-!
# Blocks of generated text

Generated text is a sequence of blocks with a blank line between them.  No block has a blank line
of its own, unless the author of the program has written a line feed in a template string: names
and numbers have none, and in strings they are escaped.  Splitting the text at blank lines therefore
gives the blocks back.
-/

namespace TypeForge

open TypeScript

/-! ## Paragraphs -/

/-- The parts of a text between its blank lines.  The text ends with a line feed. -/
def paragraphs (text : String) : List String :=
  ((text.toList.splitOn '\n').dropLast.splitOn []).map fun lines =>
    String.ofList (['\n'].intercalate lines)

/-- A text of one or more lines none of which is blank. -/
def IsBlock (text : String) : Prop :=
  ∃ lines, lines ≠ [] ∧ (∀ line ∈ lines, line ≠ "" ∧ lineFeeds line = []) ∧
    text = "\n".intercalate lines

theorem lineFeeds_eq_nil_iff {text : String} : lineFeeds text = [] ↔ '\n' ∉ text.toList := by
  rw [lineFeeds, List.filter_eq_nil_iff]
  constructor
  · intro h hmem
    simpa using h '\n' hmem
  · intro h c hc heq
    exact h (beq_iff_eq.1 heq ▸ hc)

@[simp] theorem lineFeeds_append (a b : String) : lineFeeds (a ++ b) = lineFeeds a ++ lineFeeds b := by
  simp [lineFeeds]

theorem IsBlock.not_mem_lines {text : String} (h : IsBlock text) : [] ∉ text.toList.splitOn '\n' := by
  obtain ⟨lines, hne, hlines, rfl⟩ := h
  have hfeeds : ∀ line ∈ lines.map String.toList, '\n' ∉ line := by
    intro line hline
    obtain ⟨text, htext, rfl⟩ := List.mem_map.1 hline
    exact lineFeeds_eq_nil_iff.1 (hlines text htext).2
  rw [String.toList_intercalate]
  change [] ∉ (['\n'].intercalate (lines.map String.toList)).splitOn '\n'
  rw [List.splitOn_intercalate '\n' hfeeds (by simpa using hne)]
  intro hmem
  obtain ⟨text, htext, hnil⟩ := List.mem_map.1 hmem
  exact (hlines text htext).1 (String.toList_eq_nil_iff.1 hnil)

/-- The lines of blocks with blank lines between them. -/
theorem splitOn_blocks {blocks : List String} (h : blocks ≠ []) :
    ("\n\n".intercalate blocks ++ "\n").toList.splitOn '\n' =
      [[]].intercalate (blocks.map fun block => block.toList.splitOn '\n') ++ [[]] := by
  induction blocks with
  | nil => exact absurd rfl h
  | cons block blocks ih =>
    by_cases hnil : blocks = []
    · subst hnil
      have hlast := List.splitOn_append_cons_self (a := '\n') block.toList []
      simpa using hlast
    · have htext : ("\n\n".intercalate (block :: blocks) ++ "\n").toList =
          block.toList ++ '\n' :: ([] ++ '\n' :: ("\n\n".intercalate blocks ++ "\n").toList) := by
        rw [String.intercalate_cons_of_ne_nil hnil]
        simp
      have hlines : blocks.map (fun block => block.toList.splitOn '\n') ≠ [] := by simpa using hnil
      rw [htext, List.splitOn_append_cons_self, List.splitOn_append_cons_self, ih hnil, List.map_cons,
        List.intercalate_cons_of_ne_nil hlines]
      simp

/-- **Blocks with blank lines between them are the paragraphs of the text.** -/
theorem paragraphs_intercalate {blocks : List String} (hne : blocks ≠ [])
    (h : ∀ block ∈ blocks, IsBlock block) :
    paragraphs ("\n\n".intercalate blocks ++ "\n") = blocks := by
  have hlines : ∀ lines ∈ blocks.map fun block => block.toList.splitOn '\n', [] ∉ lines := by
    intro lines hmem
    obtain ⟨block, hblock, rfl⟩ := List.mem_map.1 hmem
    exact (h block hblock).not_mem_lines
  rw [paragraphs, splitOn_blocks hne, List.dropLast_concat,
    List.splitOn_intercalate [] hlines (by simpa using hne), List.map_map]
  have hback : ((fun lines => String.ofList (['\n'].intercalate lines)) ∘
      fun block : String => block.toList.splitOn '\n') = id := by
    funext block
    rw [Function.comp_apply, List.intercalate_splitOn, String.ofList_toList, id]
  rw [hback, List.map_id]

/-! ## Line feeds -/

theorem lineFeeds_of_forall {text : String} (h : ∀ c ∈ text.toList, isWordChar c = true) :
    lineFeeds text = [] := by
  rw [lineFeeds_eq_nil_iff]
  intro hmem
  cases h _ hmem

/-- Escaped text has no line feed. -/
theorem lineFeeds_literal (cs : List Char) : lineFeeds (String.ofList (cs.flatMap literalChar)) = [] := by
  have hletters : ∀ p ∈ literalEscapes, '\n' ∉ ['\\', p.2] := by decide
  have hescaped (c : Char) : '\n' ∉ literalChar c := by
    rcases literalChar_cases c with ⟨⟨-, -, hfeed, -⟩, hliteral⟩ | ⟨d, hd, hliteral⟩
    · rw [hliteral, List.mem_singleton]
      exact Ne.symm hfeed
    · rw [hliteral]
      exact hletters _ hd
  rw [lineFeeds_eq_nil_iff, String.toList_ofList]
  intro hmem
  obtain ⟨c, -, hc⟩ := List.mem_flatMap.1 hmem
  exact hescaped c hc

theorem lineFeeds_of_isLifted {name : Name} (h : name.isLifted = true) : lineFeeds name.render = [] := by
  have hdigits (n : Nat) : lineFeeds (toString n) = [] :=
    lineFeeds_of_forall fun _ hc => isWordChar_of_isDigit (isDigit_of_mem_toString hc)
  cases name with
  | user text | temp id => cases h
  | lambda id | arm id =>
    rw [Name.render, lineFeeds_append, hdigits, List.append_nil]
    decide

/-- **Only template texts bring line feeds into generated code.** -/
theorem lineFeeds_of_known {program : Program} (hspelled : AllSpelled program.texts)
    (hchunks : ∀ text, .chunk text ∈ program.texts → '\n' ∉ text.toList) {atom : Atom}
    (hatom : atom.Known program.texts) : lineFeeds atom.text = [] := by
  cases atom with
  | source text =>
    rcases hatom with hmem | rfl
    · have htext := hspelled _ hmem
      cases text with
      | name chars => exact lineFeeds_of_forall (isWordChar_of_isIdentifier htext)
      | number digits =>
        exact lineFeeds_of_forall fun c hc => isWordChar_of_isDigit (isDigit_of_isNumber htext c hc)
      | quoted chars => exact lineFeeds_literal _
      | chunk chars => exact lineFeeds_eq_nil_iff.2 (hchunks chars hmem)
    · decide
  | symbol x =>
    exact lineFeeds_of_forall (isWordChar_of_isCapitalised (isCapitalised_of_mem_emitted hatom))
  | member name =>
    exact lineFeeds_of_forall (isWordChar_of_isCapitalised (isCapitalised_of_mem_memberNames hatom))
  | lifted name => exact lineFeeds_of_isLifted hatom

/-! ## Blocks -/

theorem isBlock_line {line : String} (hne : line ≠ "") (h : lineFeeds line = []) : IsBlock line :=
  ⟨[line], List.cons_ne_nil _ _, by simp [hne, h], by simp⟩

/-- Lines that end with a line feed, and a last line that does not. -/
theorem intercalate_concat (lines : List String) (last : String) :
    "\n".intercalate (lines ++ [last]) = String.join (lines.map (· ++ "\n")) ++ last := by
  induction lines with
  | nil => simp
  | cons line lines ih =>
    have hne : lines ++ [last] ≠ [] := by simp
    rw [List.cons_append, String.intercalate_cons_of_ne_nil hne, ih, List.map_cons, String.join_cons]
    simp only [String.append_assoc]

theorem isBlock_interface {f : Interface} (hname : lineFeeds f.name.render = [])
    (hbody : lineFeeds f.body.render = []) : IsBlock f.render := by
  refine ⟨["interface " ++ f.name.render ++ " extends " ++ Symbol.fn.name ++ " \x7b",
    "  return: " ++ f.body.render ++ ";", "\x7d"], List.cons_ne_nil _ _, ?_, ?_⟩
  · have hphrases : lineFeeds "interface " = [] ∧ lineFeeds " extends " = [] ∧ lineFeeds Symbol.fn.name = [] ∧
        lineFeeds " \x7b" = [] ∧ lineFeeds "  return: " = [] ∧ lineFeeds ";" = [] ∧ lineFeeds "\x7d" = [] := by
      decide
    simp [hphrases, hname, hbody]
  · have hopen : " \x7b\n  return: " = " \x7b" ++ ("\n" ++ "  return: ") := rfl
    have hclose : ";\n\x7d" = ";" ++ ("\n" ++ "\x7d") := rfl
    unfold Interface.render
    rw [hopen, hclose]
    simp only [String.intercalate_cons_cons, String.intercalate_singleton, String.append_assoc]

theorem lineFeeds_alias {a : Alias} (h : ∀ atom ∈ a.atoms, lineFeeds atom.text = []) :
    lineFeeds a.render = [] := by
  have hphrases : lineFeeds "type " = [] ∧ lineFeeds " = " = [] := by decide
  rw [Alias.atoms, List.forall_mem_append] at h
  have hname : lineFeeds a.name.render = [] := by
    rw [readout_lineFeeds.name, List.flatMap_eq_nil_iff]
    exact h.1
  have hvalue : lineFeeds a.value.render = [] := by
    rw [readout_lineFeeds.render, List.flatMap_eq_nil_iff]
    exact h.2
  simp [Alias.render, hphrases, hname, hvalue]

/-- A section: a comment, and its declarations one to a line. -/
theorem isBlock_group {name : String} {body : List Alias} (hname : lineFeeds name = [])
    (hbody : ∀ a ∈ body, lineFeeds a.render = []) : IsBlock (Declaration.group name body).render := by
  refine ⟨("// " ++ name) :: ("namespace " ++ name ++ " \x7b") ::
    ((body.map fun a => "  " ++ a.render ++ ";") ++ ["\x7d"]), List.cons_ne_nil _ _, ?_, ?_⟩
  · have hphrases : lineFeeds "// " = [] ∧ lineFeeds "namespace " = [] ∧ lineFeeds " \x7b" = [] ∧
        lineFeeds "  " = [] ∧ lineFeeds ";" = [] ∧ lineFeeds "\x7d" = [] := by decide
    simpa [hphrases, hname, or_imp, forall_and] using hbody
  · have hopen : "\nnamespace " = "\n" ++ "namespace " := rfl
    have hbrace : " \x7b\n" = " \x7b" ++ "\n" := rfl
    have hlines : (body.map fun a => "  " ++ a.render ++ ";\n") =
        (body.map fun a => "  " ++ a.render ++ ";").map (· ++ "\n") := by
      rw [List.map_map]
      have hend : ";\n" = ";" ++ "\n" := rfl
      refine List.map_congr_left fun a _ => ?_
      rw [Function.comp_apply, hend, ← String.append_assoc]
    have hne : (body.map fun a => "  " ++ a.render ++ ";") ++ ["\x7d"] ≠ [] := by simp
    unfold Declaration.render
    dsimp only
    rw [hopen, hbrace, hlines, String.intercalate_cons_cons,
      String.intercalate_cons_of_ne_nil hne, intercalate_concat]
    simp only [String.append_assoc]

theorem isBlock_declaration {d : Declaration} (h : ∀ atom ∈ d.atoms, lineFeeds atom.text = []) :
    IsBlock d.render := by
  cases d with
  | named isExported type =>
    have htype := lineFeeds_alias h
    unfold Declaration.render
    dsimp only
    refine isBlock_line ?_ ?_
    · simp
    · have hphrases : lineFeeds "export " = [] ∧ lineFeeds "" = [] ∧ lineFeeds ";" = [] := by decide
      cases isExported <;> simp [hphrases, htype]
  | group name body =>
    rw [Declaration.atoms, List.forall_mem_cons, List.forall_mem_cons] at h
    refine isBlock_group h.1 fun a ha => lineFeeds_alias fun atom hatom => ?_
    exact h.2.2 atom (List.mem_flatMap.2 ⟨a, ha, hatom⟩)
  | importOf symbols source =>
    rw [Declaration.atoms, List.forall_mem_append, List.forall_mem_map] at h
    unfold Declaration.render
    dsimp only
    refine isBlock_line ?_ ?_
    · simp
    · have hphrases : lineFeeds "import \x7b " = [] ∧ lineFeeds " \x7d from " = [] ∧ lineFeeds ";" = [] := by
        decide
      have hsymbols : lineFeeds (commaSeparated symbols) = [] := by
        rw [readout_lineFeeds.commaSeparated, List.flatMap_eq_nil_iff]
        exact h.1
      have hsource : lineFeeds (stringLiteral source) = [] := by
        rw [readout_lineFeeds.stringLiteral]
        exact lineFeeds_literal _
      simp [hphrases, hsymbols, hsource]

/-- The names of an import line, if a library has one. -/
theorem importLine_of_mem_importLines {m : Module} {target : Target} {line : String}
    (h : line ∈ m.importLines target) : ∃ library, line = importLine target library (m.importsOf library) := by
  obtain ⟨library, -, hline⟩ := List.mem_filterMap.1 h
  refine ⟨library, ?_⟩
  cases hnames : m.importsOf library with
  | nil =>
    rw [hnames] at hline
    cases hline
  | cons name names =>
    rw [hnames] at hline
    cases hline
    rfl

theorem isBlock_importLines {m : Module} {target : Target} (h : m.importLines target ≠ [])
    (himports : ∀ x ∈ m.imports, lineFeeds x.name = []) :
    IsBlock ("\n".intercalate (m.importLines target)) := by
  refine ⟨m.importLines target, h, fun line hline => ?_, rfl⟩
  obtain ⟨library, rfl⟩ := importLine_of_mem_importLines hline
  have hphrases : lineFeeds "import \x7b " = [] ∧ lineFeeds " \x7d from \"" = [] ∧ lineFeeds "\";" = [] ∧
      lineFeeds "type " = [] := by decide
  have hmodule : lineFeeds (library.module target) = [] := by
    cases library <;> cases target <;> decide
  have hnames : lineFeeds (commaSeparated ((m.importsOf library).map ("type " ++ ·))) = [] := by
    rw [readout_lineFeeds.commaSeparated, List.flatMap_map, List.flatMap_eq_nil_iff]
    intro name hname
    obtain ⟨x, hx, rfl⟩ := List.mem_map.1 hname
    simp [hphrases, himports x (List.mem_filter.1 hx).1]
  unfold importLine
  constructor
  · simp
  · simp [hphrases, hmodule, hnames]

/-- There are import lines exactly if anything is imported. -/
theorem importLines_eq_nil_iff {m : Module} {target : Target} :
    m.importLines target = [] ↔ m.imports = [] := by
  rw [Module.importLines, List.filterMap_eq_nil_iff]
  constructor
  · intro h
    rw [List.eq_nil_iff_forall_not_mem]
    intro x hx
    have hall : x.library ∈ Library.all := by cases x.library <;> decide
    have hname : x.name ∈ m.importsOf x.library :=
      List.mem_map_of_mem (List.mem_filter.2 ⟨hx, beq_self_eq_true _⟩)
    have hnone := h x.library hall
    cases hnames : m.importsOf x.library with
    | nil =>
      rw [hnames] at hname
      cases hname
    | cons name names =>
      rw [hnames] at hnone
      cases hnone
  · intro h library _
    simp [Module.importsOf, h]

/-- The blocks of a module. -/
theorem blocks_eq (m : Module) (target : Target) :
    m.blocks target = (if m.imports = [] then [] else ["\n".intercalate (m.importLines target)]) ++
      m.lifted.map Interface.render ++ m.items.map Declaration.render := by
  rw [Module.blocks]
  by_cases himports : m.imports = []
  · rw [if_pos himports, importLines_eq_nil_iff.2 himports]
  · rw [if_neg himports]
    cases hlines : m.importLines target with
    | nil => exact absurd (importLines_eq_nil_iff.1 hlines) himports
    | cons line lines => rfl

/-- **The paragraphs of generated text are its blocks**: the import lines, the lifted functions and
the declarations. -/
theorem paragraphs_render {program : Program} {m : Module} (h : program.generate = .ok m)
    (hspelled : AllSpelled program.texts) (hitems : m.items ≠ [])
    (hchunks : ∀ text, .chunk text ∈ program.texts → '\n' ∉ text.toList) (target : Target) :
    paragraphs (m.render target) = m.blocks target := by
  have hatoms : ∀ atom ∈ m.atoms, lineFeeds atom.text = [] :=
    fun atom hatom => lineFeeds_of_known hspelled hchunks (known_of_mem_atoms h hatom)
  rw [Module.atoms, List.forall_mem_append] at hatoms
  apply paragraphs_intercalate
  · simp [Module.blocks, hitems]
  · rw [blocks_eq, List.forall_mem_append, List.forall_mem_append, List.forall_mem_map, List.forall_mem_map]
    refine ⟨⟨?_, fun f hf => ?_⟩, fun d hd => ?_⟩
    · by_cases himports : m.imports = []
      · simp [himports]
      · rw [if_neg himports, List.forall_mem_singleton]
        refine isBlock_importLines (mt importLines_eq_nil_iff.1 himports) fun x hx => ?_
        exact lineFeeds_of_known hspelled hchunks (known_of_mem_atoms h ((mem_imports_iff h x).1 hx))
    · have hf' : ∀ atom ∈ Atom.lifted f.name :: f.atoms, lineFeeds atom.text = [] :=
        fun atom hatom => hatoms.1 atom (List.mem_flatMap.2 ⟨f, hf, hatom⟩)
      rw [List.forall_mem_cons, Interface.atoms, List.forall_mem_cons] at hf'
      refine isBlock_interface hf'.1 ?_
      rw [readout_lineFeeds.render, List.flatMap_eq_nil_iff]
      exact hf'.2.2
    · exact isBlock_declaration fun atom hatom => hatoms.2 atom (List.mem_flatMap.2 ⟨d, hd, hatom⟩)

end TypeForge
