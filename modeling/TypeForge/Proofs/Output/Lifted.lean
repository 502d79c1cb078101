import TypeForge.Proofs.Generate.Frame
import TypeForge.Proofs.Lowering.Preserves
import TypeForge.Proofs.Output.Blocks

/-!
# Lifted functions in generated text

Lambdas and match arms become interfaces in front of the declarations.  Each of them has a name
of its own, mentions only those in front of it, and is mentioned behind it.  The text has no other
words of that form, unless the author of the program has written one.
-/

namespace TypeForge

open TypeScript

/-! ## Spelling of names -/

/-- Names of lifted functions are spelled differently. -/
theorem eq_of_render_eq {a b : Name} (ha : a.isLifted = true) (hb : b.isLifted = true)
    (h : a.render = b.render) : a = b := by
  have hstems (n n' : Nat) : "lambda_temp_" ++ toString n ≠ "arm_temp_" ++ toString n' := by
    intro heq
    have hhead := congrArg (fun text => text.toList.head?) heq
    simp at hhead
  cases a with
  | user text | temp id => cases ha
  | lambda id =>
    cases b with
    | user text | temp id => cases hb
    | lambda id' =>
      rw [Name.render, Name.render, String.append_right_inj] at h
      rw [toString_injective h]
    | arm id' => exact absurd h (hstems id id')
  | arm id =>
    cases b with
    | user text | temp id => cases hb
    | lambda id' => exact absurd h.symm (hstems id' id)
    | arm id' =>
      rw [Name.render, Name.render, String.append_right_inj] at h
      rw [toString_injective h]

theorem isNoteworthy_of_isLiftedWord {word : String} (h : isLiftedWord word = true) :
    isNoteworthy word = true := by
  rw [isNoteworthy, h, Bool.or_true]

/-- Where a lifted function is mentioned, its name is a word of the text. -/
theorem mem_words_of_lifted {atoms : List Atom} {text : String} {name : Name} (hname : name.isLifted = true)
    (htext : marks text = atoms.flatMap fun atom => marks atom.text) (h : .lifted name ∈ atoms) :
    name.render ∈ words text := by
  obtain ⟨hwords, hlifted⟩ := isLiftedWord_of_isLifted hname
  have hself : name.render ∈ marks name.render := by
    rw [marks, hwords]
    exact List.mem_filter.2 ⟨List.mem_singleton_self _, isNoteworthy_of_isLiftedWord hlifted⟩
  have hmark : name.render ∈ marks text := by
    rw [htext]
    exact List.mem_flatMap.2 ⟨.lifted name, h, hself⟩
  exact (List.mem_filter.1 hmark).1

/-! ## Import lines -/

theorem marks_importLine (target : Target) (library : Library) (names : List String) :
    marks (importLine target library names) = names.flatMap marks := by
  have hmodule : marks (library.module target) = [] := by
    apply marks_phrase
    cases library <;> cases target <;> decide
  have htype (name : String) : marks ("type " ++ name) = marks name := marks_lead (by decide)
  unfold importLine
  rw [marks_trail, marks_glue, marks_lead, hmodule, List.append_nil,
    readout_marks.commaSeparated, List.flatMap_map]
  · simp only [htype]
  all_goals decide

/-- The noteworthy words of the import lines are what is imported. -/
theorem mem_imports_of_mem_header {m : Module} {target : Target} {word : String}
    (h : word ∈ marks (m.header target)) : ∃ x ∈ m.imports, word ∈ marks x.name := by
  have hlines : word ∈ (m.importLines target).flatMap marks := by
    rw [Module.header] at h
    cases hlines : m.importLines target with
    | nil =>
      rw [hlines] at h
      cases h
    | cons line lines =>
      have hfeed : marks "\n" = [] := marks_phrase _ (by decide)
      rw [hlines] at h
      rwa [marks_trail (by decide), partwise_marks.intercalate hfeed (by decide) (by decide) (by decide)] at h
  obtain ⟨line, hline, hword⟩ := List.mem_flatMap.1 hlines
  obtain ⟨library, rfl⟩ := importLine_of_mem_importLines hline
  rw [marks_importLine] at hword
  obtain ⟨name, hname, hword⟩ := List.mem_flatMap.1 hword
  obtain ⟨x, hx, rfl⟩ := List.mem_map.1 hname
  exact ⟨x, (List.mem_filter.1 hx).1, hword⟩

theorem words_header_append (m : Module) (target : Target) (text : String) :
    words (m.header target ++ text) = words (m.header target) ++ words text := by
  have hends : endsApart (m.header target) = true := by
    rw [Module.header]
    split
    · rfl
    · rw [endsApart_append (by decide)]
      decide
  exact words_append (.inl hends)

/-! ## Words of generated text -/

section

variable {program : Program} {m : Module} (h : program.generate = .ok m)

include h

/-- No two lifted functions have the same name. -/
theorem nodup_lifted : (m.lifted.map fun f => f.name.render).Nodup := by
  obtain ⟨s, hrun, -, hlifted, -⟩ := tally_of_generate h
  have hunambiguous : s.Unambiguous :=
    (Gen.binds_topLevels rfl program.body hrun).unambiguous ⟨List.nodup_nil, by simp [GenState.initial]⟩
  have hnames : (m.lifted.map Interface.name).Nodup := hlifted ▸ hunambiguous.1
  have hmap : (m.lifted.map fun f => f.name.render) = (m.lifted.map Interface.name).map Name.render := by
    rw [List.map_map]
    rfl
  rw [hmap]
  refine hnames.map_on fun a ha b hb heq => ?_
  obtain ⟨f, hf, rfl⟩ := List.mem_map.1 ha
  obtain ⟨g, hg, rfl⟩ := List.mem_map.1 hb
  exact eq_of_render_eq (isLifted_of_mem_lifted h hf) (isLifted_of_mem_lifted h hg) heq

/-- What the author of the program has not written is mentioned by the code. -/
theorem lifted_of_mem_words (hspelled : AllSpelled program.texts)
    (hwording : ∀ text ∈ program.wording, ∀ word ∈ words text, isLiftedWord word = false)
    {atoms : List Atom} (hatoms : ∀ atom ∈ atoms, atom ∈ m.atoms) {text word : String}
    (htext : marks text = atoms.flatMap fun atom => marks atom.text) (hword : word ∈ words text)
    (hlifted : isLiftedWord word = true) : ∃ name, .lifted name ∈ atoms ∧ word = name.render := by
  have hknown : ∀ atom ∈ atoms, atom.Known program.texts :=
    fun atom hatom => known_of_mem_atoms h (hatoms atom hatom)
  rcases written_or_generated hspelled hknown htext hword (isNoteworthy_of_isLiftedWord hlifted) with
    ⟨written, hmem, hword'⟩ | ⟨atom, hatom, rfl, hsource⟩
  · rw [hwording written hmem word hword'] at hlifted
    cases hlifted
  · have hatom' := hknown atom hatom
    cases atom with
    | source text => exact absurd rfl (hsource text)
    | symbol x =>
      have hplain := isLiftedWord_of_isCapitalised (isCapitalised_of_mem_emitted hatom')
      rw [Atom.text, hplain] at hlifted
      cases hlifted
    | member name =>
      have hplain := isLiftedWord_of_isCapitalised (isCapitalised_of_mem_memberNames hatom')
      rw [Atom.text, hplain] at hlifted
      cases hlifted
    | lifted name => exact ⟨name, hatom, rfl⟩

/-- What code mentions is declared. -/
theorem mem_lifted_of_mem_atoms {name : Name} (hname : .lifted name ∈ m.atoms) :
    name ∈ m.lifted.map Interface.name := by
  obtain ⟨s, -, -, hlifted, htally⟩ := tally_of_generate h
  rcases List.mem_append.1 hname with hmem | hmem
  · obtain ⟨f, hf, hmem⟩ := List.mem_flatMap.1 hmem
    rcases List.mem_cons.1 hmem with hself | hmem
    · cases hself
      exact List.mem_map_of_mem hf
    · rw [hlifted] at hf ⊢
      obtain ⟨before, after, hsplit⟩ := List.append_of_mem hf
      rw [hsplit, List.map_append]
      exact List.mem_append_left _ (htally.ordered before f after hsplit name hmem)
  · rw [hlifted]
    exact htally.present name hmem

theorem isLiftedWord_of_mem_header {target : Target} {word : String} (hword : word ∈ words (m.header target)) :
    isLiftedWord word = false := by
  rw [Bool.eq_false_iff]
  intro hlifted
  have hmark : word ∈ marks (m.header target) :=
    List.mem_filter.2 ⟨hword, isNoteworthy_of_isLiftedWord hlifted⟩
  obtain ⟨x, hx, hmark⟩ := mem_imports_of_mem_header hmark
  have hcapital : isCapitalised x.name = true :=
    isCapitalised_of_mem_emitted (known_of_mem_atoms h ((mem_imports_iff h x).1 hx))
  rw [marks_of_isCapitalised hcapital, List.mem_singleton] at hmark
  rw [hmark, isLiftedWord_of_isCapitalised hcapital] at hlifted
  cases hlifted

section

variable (hspelled : AllSpelled program.texts)
  (hwording : ∀ text ∈ program.wording, ∀ word ∈ words text, isLiftedWord word = false)

include hspelled hwording

/-- Every lifted function that the text mentions is declared. -/
theorem declared_of_mem_words {target : Target} (hitems : m.items ≠ []) {word : String}
    (hword : word ∈ words (m.render target)) (hlifted : isLiftedWord word = true) :
    word ∈ m.lifted.map fun f => f.name.render := by
  rw [m.render_eq_append hitems, words_header_append, List.mem_append] at hword
  rcases hword with hheader | hcode
  · rw [isLiftedWord_of_mem_header h hheader] at hlifted
    cases hlifted
  · obtain ⟨name, hname, rfl⟩ :=
      lifted_of_mem_words h hspelled hwording (fun _ hatom => hatom) m.marks_code hcode hlifted
    obtain ⟨f, hf, rfl⟩ := List.mem_map.1 (mem_lifted_of_mem_atoms h hname)
    exact List.mem_map_of_mem hf

/-- A lifted function mentions only those in front of it. -/
theorem declared_before_of_mem_words {before after : List Interface} {f : Interface}
    (hsplit : m.lifted = before ++ f :: after) {word : String} (hword : word ∈ words f.body.render)
    (hlifted : isLiftedWord word = true) : word ∈ before.map fun f => f.name.render := by
  have hbody {atom : Atom} (hatom : atom ∈ f.body.atoms) : atom ∈ m.atoms := by
    refine List.mem_append_left _ (List.mem_flatMap.2 ⟨f, ?_, ?_⟩)
    · rw [hsplit]
      exact List.mem_append_right _ List.mem_cons_self
    · exact List.mem_cons_of_mem _ (List.mem_cons_of_mem _ hatom)
  obtain ⟨name, hname, rfl⟩ :=
    lifted_of_mem_words h hspelled hwording (fun _ => hbody) (readout_marks.render f.body) hword hlifted
  obtain ⟨s, -, -, hstate, htally⟩ := tally_of_generate h
  have hbefore := htally.ordered before f after (hstate ▸ hsplit) name (List.mem_cons_of_mem _ hname)
  obtain ⟨g, hg, rfl⟩ := List.mem_map.1 hbefore
  exact List.mem_map_of_mem hg

end

/-- A lifted function is mentioned behind its declaration. -/
theorem mentioned_behind {before after : List Interface} {f : Interface}
    (hsplit : m.lifted = before ++ f :: after) :
    (∃ g ∈ after, f.name.render ∈ words g.body.render) ∨
      ∃ item ∈ m.items, f.name.render ∈ words item.render := by
  have hf : f ∈ m.lifted := by
    rw [hsplit]
    exact List.mem_append_right _ List.mem_cons_self
  have hname := isLifted_of_mem_lifted h hf
  obtain ⟨s, -, -, hstate, htally⟩ := tally_of_generate h
  rcases htally.used before f after (hstate ▸ hsplit) with hpending | ⟨g, hg, hmem⟩
  · obtain ⟨item, hitem, hmem⟩ := List.mem_flatMap.1 hpending
    exact .inr ⟨item, hitem, mem_words_of_lifted hname (marks_declaration item) hmem⟩
  · rcases List.mem_cons.1 hmem with hfn | hmem
    · cases hfn
    · exact .inl ⟨g, hg, mem_words_of_lifted hname (readout_marks.render g.body) hmem⟩

end

/-- **Lifted functions are declared once and in order.**  If the author of the program has written
no word that is spelled like the name of a lifted function, then no two lifted functions have the
same name, every such word of the text is the name of one, the body of a lifted function mentions
only those in front of it, and each is mentioned by a later one or by a declaration.  If no
template has a line feed either, then the paragraphs of the text are the import lines, if anything
is imported, the lifted functions, and the declarations, one for each item of the program. -/
theorem lifted_are_declared_in_order {target : Target} {source output : String}
    (h : compile target source = .ok output) :
    ∃ program m, parseProgram source = .ok program ∧ program.generate = .ok m ∧
      output = m.render target ∧ List.Forall₂ Declares program.body m.items ∧
      ((∀ text ∈ program.wording, ∀ word ∈ words text, isLiftedWord word = false) →
        (m.lifted.map fun f => f.name.render).Nodup ∧
        (∀ f ∈ m.lifted, isLiftedWord f.name.render = true) ∧
        (∀ word ∈ words output, isLiftedWord word = true → word ∈ m.lifted.map fun f => f.name.render) ∧
        (∀ before f after, m.lifted = before ++ f :: after →
          (∀ word ∈ words f.body.render, isLiftedWord word = true →
            word ∈ before.map fun f => f.name.render) ∧
          ((∃ g ∈ after, f.name.render ∈ words g.body.render) ∨
            ∃ item ∈ m.items, f.name.render ∈ words item.render)) ∧
        ((∀ text, .chunk text ∈ program.texts → '\n' ∉ text.toList) →
          paragraphs output =
            (if m.imports = [] then [] else ["\n".intercalate (m.importLines target)]) ++
              m.lifted.map Interface.render ++ m.items.map Declaration.render)) := by
  obtain ⟨program, m, hprogram, hm, rfl⟩ := of_compile h
  have hspelled := spelled_of_parseProgram hprogram
  have hitems := items_ne_nil hprogram hm
  refine ⟨program, m, hprogram, hm, rfl, declares_of_generate hm, fun hwording => ⟨nodup_lifted hm, ?_, ?_, ?_, ?_⟩⟩
  · intro f hf
    exact (isLiftedWord_of_isLifted (isLifted_of_mem_lifted hm hf)).2
  · intro word hword hlifted
    exact declared_of_mem_words hm hspelled hwording hitems hword hlifted
  · intro before f after hsplit
    constructor
    · intro word hword hlifted
      exact declared_before_of_mem_words hm hspelled hwording hsplit hword hlifted
    · exact mentioned_behind hm hsplit
  · intro hchunks
    rw [paragraphs_render hm hspelled hitems hchunks, blocks_eq]

/-- Match arms in a lambda in a function, and a lambda in a section. -/
def liftingSource : String :=
  "type f(a) = (b) => match a \x7b infer x -> [x + b], 'one' -> \x60<$\x7bb\x7d>\x60 \x7d; " ++
    "#[s] :\x7b let g = (y) => f(y) \x7d"

theorem lifted_of_liftingSource :
    ∃ output program m, compile .published liftingSource = .ok output ∧
      parseProgram liftingSource = .ok program ∧ program.generate = .ok m ∧
      (∀ text ∈ program.wording, ∀ word ∈ words text, isLiftedWord word = false) ∧
      (∀ text, .chunk text ∈ program.texts → '\n' ∉ text.toList) ∧
      (m.lifted.map fun f => f.name.render) =
        ["arm_temp_3", "arm_temp_4", "lambda_temp_5", "lambda_temp_6", "lambda_temp_8"] ∧
      (∀ word ∈ words output, isLiftedWord word = true → word ∈ m.lifted.map fun f => f.name.render) ∧
      (∀ before f after, m.lifted = before ++ f :: after →
        ∀ word ∈ words f.body.render, isLiftedWord word = true →
          word ∈ before.map fun f => f.name.render) ∧
      paragraphs output = ["\n".intercalate (m.importLines .published)] ++
        m.lifted.map Interface.render ++ m.items.map Declaration.render := by
  have hcheck : ((parseProgram liftingSource).toOption.any fun program =>
      program.generate.toOption.any fun m =>
        (program.wording.all fun text => (words text).all fun word => !isLiftedWord word) &&
          (program.texts.all fun text => text.text.toList.all (· != '\n')) && !m.imports.isEmpty &&
          (m.lifted.map fun f => f.name.render) ==
            ["arm_temp_3", "arm_temp_4", "lambda_temp_5", "lambda_temp_6", "lambda_temp_8"]) = true := by
    decide +kernel
  obtain ⟨output, houtput, hchecked⟩ := compiles_of_check hcheck .published
  obtain ⟨program, m, hprogram, hm, -, -, hlifted⟩ := lifted_are_declared_in_order houtput
  have hprogram' := hchecked program m hprogram hm
  simp only [Bool.and_eq_true, beq_iff_eq] at hprogram'
  obtain ⟨⟨⟨hplain, hlines⟩, himports⟩, hnames⟩ := hprogram'
  have hwording : ∀ text ∈ program.wording, ∀ word ∈ words text, isLiftedWord word = false := by
    simpa using hplain
  have hchunks : ∀ text, .chunk text ∈ program.texts → '\n' ∉ text.toList := by
    intro text htext hmem
    have hall : ∀ text ∈ program.texts, ∀ c ∈ text.text.toList, c ≠ '\n' := by simpa using hlines
    exact hall _ htext _ hmem rfl
  have hne : m.imports ≠ [] := by simpa using himports
  obtain ⟨-, -, hdeclared, hordered, hparagraphs⟩ := hlifted hwording
  refine ⟨output, program, m, houtput, hprogram, hm, hwording, hchunks, hnames, hdeclared, ?_, ?_⟩
  · exact fun before f after hsplit => (hordered before f after hsplit).1
  · rw [hparagraphs hchunks, if_neg hne]

end TypeForge
