import TypeForge.Proofs.Generate.Oblivious
import TypeForge.Proofs.Output.Composition
import TypeForge.Proofs.Output.Literals
import TypeForge.Proofs.Parser.Templates

/-!
# Template strings in generated code

A template string is printed as a template literal, and its texts are printed as they are.  The
target language has escapes where the source language has none.  So the literal is read as the
texts and expressions of the template string exactly if nothing in the texts has a meaning there:
no backslash, and no dollar sign with an opening brace.
-/

namespace TypeForge

open TypeScript

/-! ## Code inside of substitutions -/

/-- Names and numbers are made of word characters, and nothing in the texts of template literals
has a meaning. -/
def TypeScript.Atom.Tame (atom : Atom) : Prop := atom.Fits fun text => Verbatim text.toList

/-- A text that is taken as it stands inside of a substitution. -/
def SkipsText (text : String) : Prop := Skips text.toList

theorem SkipsText.append {a b : String} (ha : SkipsText a) (hb : SkipsText b) : SkipsText (a ++ b) := by
  rw [SkipsText, String.toList_append]
  exact Skips.append ha hb

/-- Fixed phrases. -/
theorem skipsText_phrase (text : String) (h : text.toList.all (· ∉ codeMarks) = true) : SkipsText text :=
  skips_of_all h

theorem skipsText_braced {text : String} (h : SkipsText text) : SkipsText ("\x7b" ++ text ++ "\x7d") := by
  have hbraced : ("\x7b" ++ text ++ "\x7d").toList = '\x7b' :: text.toList ++ ['\x7d'] := by simp
  rw [SkipsText, hbraced]
  exact Skips.braced h

/-- The inside of a template literal, where `front` is the text in front of the pieces. -/
theorem traverses_pieces {front : String} {ps : List Piece}
    (hchunks : ∀ text, .source (.chunk text) ∈ atomsOfPieces front ps → Verbatim text.toList)
    (hvalues : ∀ value, .ty value ∈ ps → SkipsText value.render) (opening : Opening) (openings : List Opening) :
    Traverses (.text .plain) (opening :: openings) (front.toList ++ (pieceText ps).toList ++ ['\x60']) .code
      (opening :: openings) := by
  induction ps generalizing front with
  | nil =>
    obtain ⟨place, hplace, -, hfront⟩ := read_verbatim (.inl rfl) (hchunks front (List.mem_singleton_self _))
    rw [pieceText, String.toList_empty, List.append_nil]
    exact (hfront opening openings).append (traverses_backtick hplace opening openings)
  | cons piece ps ih =>
    have hrest : ∀ value, .ty value ∈ ps → SkipsText value.render :=
      fun value hvalue => hvalues value (List.mem_cons_of_mem _ hvalue)
    cases piece with
    | text text =>
      rw [pieceText, String.toList_append, ← List.append_assoc, ← String.toList_append]
      exact ih hchunks hrest
    | ty value =>
      rw [atomsOfPieces] at hchunks
      obtain ⟨place, hplace, -, hfront⟩ := read_verbatim (.inl rfl) (hchunks front List.mem_cons_self)
      have hvalue := traverses_substitution hplace (hvalues value List.mem_cons_self) opening openings
      have hpieces := @ih "" (fun text htext => hchunks text (by simp [htext])) hrest
      have htext : front.toList ++ (pieceText (.ty value :: ps)).toList ++ ['\x60'] =
          front.toList ++ ('$' :: '\x7b' :: value.render.toList ++ ['\x7d']) ++
            ("".toList ++ (pieceText ps).toList ++ ['\x60']) := by
        simp [pieceText]
      rw [htext]
      exact ((hfront opening openings).append hvalue).append hpieces

/-- To be taken as it stands is a property that goes from parts to the whole. -/
theorem compositional_skipsText : Compositional (fun text => Verbatim text.toList) SkipsText where
  plain text h := by
    have hmarks : codeMarks ⊆ syntaxMarks := by decide
    refine skips_of_forall fun c hc hmark => ?_
    exact of_decide_eq_true (List.all_eq_true.1 h c hc) (hmarks hmark)
  append := SkipsText.append
  enclosed b text h := by
    cases b with
    | brace => exact skipsText_braced h
    | round | square | angle =>
      exact ((skipsText_phrase _ (by decide)).append h).append (skipsText_phrase _ (by decide))
  literal := skips_stringLiteral
  comment h := skips_originText fun c hc heq => absurd (h c hc) (by rw [heq]; decide)
  template parts hchunks hvalues := by
    intro opening openings
    have hparts := traverses_pieces hchunks hvalues opening openings
    have htext : (Ty.template parts).render.toList = '\x60' :: ("".toList ++ (pieceText parts).toList ++ ['\x60']) := by
      unfold Ty.render
      simp
    rw [htext]
    exact Traverses.cons rfl hparts

/-- **The code of a type is taken as it stands inside of a substitution.** -/
theorem skips_render (t : Ty) (h : ∀ atom ∈ t.atoms, atom.Tame) : SkipsText t.render :=
  compositional_skipsText.render t h

/-! ## Atoms of the code of an expression -/

section

variable {ctx : Context} {e : Expr} {t : Ty} {s s' : GenState} {texts : List SourceText}

/-- The code of an expression has the texts of the expression and the names that are visible. -/
theorem known_of_exprTy (h : (Gen.exprTy ctx e).Yields s t s') (he : e.texts ⊆ texts) (hctx : ctx.Named texts)
    (hvars : ∀ x ∈ s.patternVars, .name x ∈ texts) : ∀ atom ∈ t.atoms, atom.Known texts := by
  -- what was generated before does not matter, so the books can be taken to be empty
  obtain ⟨s₁, hrun, -⟩ := Gen.oblivious_exprTy ctx e h ⟨s.nextId, [], [], s.patternVars⟩ ⟨rfl, rfl⟩
  have hempty : GenState.Tally texts [] ⟨s.nextId, [], [], s.patternVars⟩ := by
    constructor <;> simp_all
  have htally := Gen.adds_exprTy hctx e he [] hrun hempty
  exact htally.pending

end

/-- The code of an expression is tame if its names are identifiers and nothing in its template
strings has a meaning. -/
theorem tame_of_exprTy {ctx : Context} {e : Expr} {t : Ty} {s s' : GenState}
    (h : (Gen.exprTy ctx e).Yields s t s') (hspelled : AllSpelled e.texts)
    (hverbatim : ∀ text, .chunk text ∈ e.texts → Verbatim text.toList)
    (hctx : ∀ x, ctx.scope.resolve x ≠ .unbound → isIdentifier x = true)
    (hvars : ∀ x ∈ s.patternVars, isIdentifier x = true) : ∀ atom ∈ t.atoms, atom.Tame := by
  set visible := (ctx.scope.captures s.patternVars []).map SourceText.name with hvisible
  have hspelled' : AllSpelled visible := by
    refine List.forall_mem_map.2 fun x hx => ?_
    exact (Scope.mem_captures_iff.1 hx).2.elim (hvars x) (hctx x)
  have htexts : ∀ text ∈ e.texts ++ visible, (Atom.source text).Tame := by
    refine List.forall_mem_append.2 ⟨fun text htext => ?_, fun text htext => ?_⟩
    · exact SourceText.Spelled.fits (hspelled text htext) fun chunk heq => hverbatim chunk (heq ▸ htext)
    · refine SourceText.Spelled.fits (hspelled' text htext) fun chunk heq => ?_
      obtain ⟨x, -, hx⟩ := List.mem_map.1 htext
      cases hx.trans heq
  have hknown := known_of_exprTy h (List.subset_append_left _ visible)
    (fun x hx => by simp [hvisible, Scope.mem_captures_iff, hx])
    (fun x hx => by simp [hvisible, Scope.mem_captures_iff, hx])
  exact fun atom hatom => fits_of_known htexts (hknown atom hatom)

/-! ## The parts of a template string -/

/-- The code of a part of a template string. -/
inductive PartCode (ctx : Context) : Part → Piece → Prop where
  | text (text : String) : PartCode ctx (.text text) (.text text)
  | expr {value : Expr} {t : Ty} {s s' : GenState} (h : (Gen.exprTy ctx value).Yields s t s') :
      PartCode ctx (.expr value) (.ty t)

/-- What a piece of a template literal should be read as. -/
def TypeScript.Piece.chunk : Piece → Chunk
  | .text string => .text string.toList
  | .ty value => .substitution value.render.toList

theorem partCode_of_partTys {ctx : Context} {parts : List Part} {pieces : List Piece} {s s' : GenState}
    (h : (Gen.partTys ctx parts).Yields s pieces s') : List.Forall₂ (PartCode ctx) parts pieces := by
  induction parts generalizing pieces s s' with
  | nil =>
    rw [Gen.partTys] at h
    rw [(Gen.yields_pure.1 h).1]
    exact .nil
  | cons part parts ih =>
    cases part with
    | text text =>
      rw [Gen.partTys] at h
      obtain ⟨pieces', s₁, hrest, hpure⟩ := Gen.yields_bind.1 h
      rw [(Gen.yields_pure.1 hpure).1]
      exact .cons (.text text) (ih hrest)
    | expr value =>
      rw [Gen.partTys] at h
      obtain ⟨t, s₁, hvalue, h⟩ := Gen.yields_bind.1 h
      obtain ⟨pieces', s₂, hrest, hpure⟩ := Gen.yields_bind.1 h
      rw [(Gen.yields_pure.1 hpure).1]
      exact .cons (.expr hvalue) (ih hrest)

/-- The code of a template string is the literal of its pieces. -/
theorem toList_render_template (pieces : List Piece) :
    (Ty.template pieces).render.toList = literalOf (pieces.map Piece.chunk) := by
  have hpieces : (pieceText pieces).toList = (pieces.map Piece.chunk).flatMap Chunk.source := by
    induction pieces with
    | nil => rfl
    | cons piece pieces ih =>
      cases piece with
      | text text => simp [pieceText, Piece.chunk, Chunk.source, ih]
      | ty value => simp [pieceText, Piece.chunk, Chunk.source, ih]
  unfold Ty.render
  simp [literalOf, hpieces]

section

variable {ctx : Context} {parts : List Part} {pieces : List Piece}

theorem written_of_cutParts (hcut : CutParts parts) (h : List.Forall₂ (PartCode ctx) parts pieces) :
    Written (pieces.map Piece.chunk) := by
  induction hcut generalizing pieces with
  | last htext =>
    obtain ⟨_, _, ⟨⟩, ⟨⟩, rfl⟩ := List.forall₂_cons_left_iff.1 h
    exact .last htext
  | more htext _ ih =>
    obtain ⟨_, _, ⟨⟩, hrest, rfl⟩ := List.forall₂_cons_left_iff.1 h
    obtain ⟨_, _, ⟨⟩, hmore, rfl⟩ := List.forall₂_cons_left_iff.1 hrest
    exact .more _ htext (ih hmore)

/-- A text stands among the parts exactly if it stands among the pieces. -/
theorem text_mem_iff (h : List.Forall₂ (PartCode ctx) parts pieces) (text : String) :
    .text text ∈ parts ↔ .text text.toList ∈ pieces.map Piece.chunk := by
  induction h with
  | nil => simp
  | cons hpart _ ih =>
    rw [List.map_cons, List.mem_cons, List.mem_cons, ih]
    cases hpart with
    | text text' => rw [Part.text.injEq, Piece.chunk, Chunk.text.injEq, String.toList_inj]
    | expr hvalue => simp only [Piece.chunk, reduceCtorEq]

/-- The code between the texts is taken as it stands if its atoms are tame. -/
theorem skips_of_mem_pieces {front : String} (h : ∀ atom ∈ atomsOfPieces front pieces, atom.Tame)
    {code : List Char} (hcode : .substitution code ∈ pieces.map Piece.chunk) : Skips code := by
  induction pieces generalizing front with
  | nil => cases hcode
  | cons piece pieces ih =>
    cases piece with
    | text text =>
      rw [atomsOfPieces] at h
      exact ih h (by simpa [Piece.chunk] using hcode)
    | ty value =>
      rw [atomsOfPieces, List.forall_mem_cons, List.forall_mem_append] at h
      rw [List.map_cons, List.mem_cons] at hcode
      rcases hcode with heq | hcode
      · cases heq
        exact skips_render value h.2.1
      · exact ih h.2.2 hcode

/-- The texts of a template string are texts of the expression. -/
theorem chunk_mem_texts (hcut : CutParts parts) {text : String} (h : .text text ∈ parts) :
    .chunk text ∈ textsOfParts "" parts := by
  induction hcut with
  | last htext => simpa using h
  | more htext _ ih =>
    simp only [List.mem_cons, Part.text.injEq, reduceCtorEq, false_or] at h
    rcases h with rfl | h
    · simp
    · simp [ih h]

end

/-- **A template string is read as it was meant exactly if nothing in its texts has a meaning in the
target language.**  Its code is a template literal with its texts and with a substitution for each
of its expressions.  If the literal is read as these, its texts have neither a backslash nor the
mark of a substitution in them; the literal is read so if this holds of the texts of template
strings inside of it, too. -/
theorem readTemplate_render {source : String} {e : Expr} (hparse : parseExpr source = .ok e) {pos : Position}
    {parts : List Part} (htemplate : Expr.Within (.template pos parts) e) {ctx : Context} {s s' : GenState}
    (hctx : ∀ x, ctx.scope.resolve x ≠ .unbound → isIdentifier x = true)
    (hvars : ∀ x ∈ s.patternVars, isIdentifier x = true) {t : Ty}
    (hrun : (Gen.exprTy ctx (.template pos parts)).Yields s t s') :
    ∃ pieces, t = .template pieces ∧ List.Forall₂ (PartCode ctx) parts pieces ∧
      (readTemplate t.render.toList = some (pieces.map Piece.chunk) →
        ∀ text, .text text ∈ parts → Verbatim text.toList) ∧
      ((∀ text, .chunk text ∈ (Expr.template pos parts).texts → Verbatim text.toList) →
        readTemplate t.render.toList = some (pieces.map Piece.chunk)) := by
  obtain ⟨hcut, hspelled⟩ := wellMade_of_parseExpr hparse htemplate
  have hpieces : ∃ pieces, t = .template pieces ∧ List.Forall₂ (PartCode ctx) parts pieces := by
    rw [Gen.exprTy] at hrun
    obtain ⟨pieces, s₁, hparts, hpure⟩ := Gen.yields_bind.1 hrun
    exact ⟨pieces, (Gen.yields_pure.1 hpure).1, partCode_of_partTys hparts⟩
  obtain ⟨pieces, rfl, hcode⟩ := hpieces
  have hwritten := written_of_cutParts hcut hcode
  rw [toList_render_template]
  refine ⟨pieces, rfl, hcode, fun hread text htext => ?_, fun hverbatim => ?_⟩
  · exact hwritten.verbatim_of_readTemplate hread _ ((text_mem_iff hcode text).1 htext)
  · have htame := tame_of_exprTy hrun hspelled hverbatim hctx hvars
    refine hwritten.readTemplate_eq (fun text htext => ?_) fun code hmem => skips_of_mem_pieces htame hmem
    have hpart := (text_mem_iff hcode (String.ofList text)).2 (by rwa [String.toList_ofList])
    have hown := hverbatim _ (chunk_mem_texts hcut hpart)
    rwa [String.toList_ofList] at hown

/-- A place inside of a function of one parameter. -/
def inFunction : Context := ⟨⟨[], [], [some "x"]⟩, none, fun _ => none⟩

/-- A template string with dollar signs that open no interpolation. -/
def dollarTemplate : Expr :=
  .template ⟨1, 1⟩ [.text "$a", .expr (.ident ⟨1, 6⟩ "x"), .text "$ \x7b"]

theorem readTemplate_render_dollars :
    parseExpr "\x60$a$\x7bx\x7d$ \x7b\x60" = .ok dollarTemplate ∧
    (∀ x, inFunction.scope.resolve x ≠ .unbound → isIdentifier x = true) ∧
    ∃ t s', (Gen.exprTy inFunction dollarTemplate).Yields .initial t s' ∧
      (∀ text, .chunk text ∈ dollarTemplate.texts → Verbatim text.toList) ∧
      readTemplate t.render.toList =
        some [.text "$a".toList, .substitution "this[\x22arg1\x22] /** x */".toList, .text "$ \x7b".toList] := by
  have hsegments : ∀ segment ∈ [Segment.mk "$a".toList "x"], segment.WellFormed := by decide
  have hlast : Plain "$ \x7b".toList := by decide
  have hsource : "\x60$a$\x7bx\x7d$ \x7b\x60" = templateSource [⟨"$a".toList, "x"⟩] "$ \x7b".toList := rfl
  have hparse : parseExpr "\x60$a$\x7bx\x7d$ \x7b\x60" = .ok dollarTemplate := by
    rw [hsource, parseExpr_templateSource hsegments hlast]
    rfl
  have hctx : ∀ x, inFunction.scope.resolve x ≠ .unbound → isIdentifier x = true := by
    intro x hx
    by_cases heq : x = "x"
    · rw [heq]
      decide
    · exact absurd (by simp [inFunction, Scope.resolve, Ne.symm heq]) hx
  have hverbatim : ∀ text, .chunk text ∈ dollarTemplate.texts → Verbatim text.toList := by
    intro text htext
    have htexts : text = "$a" ∨ text = "$ \x7b" := by simpa [dollarTemplate] using htext
    rcases htexts with rfl | rfl <;> decide
  have hrun : (Gen.exprTy inFunction dollarTemplate).Yields .initial
      (.template [.text "$a", .ty (.param 1 "x"), .text "$ \x7b"]) .initial := rfl
  refine ⟨hparse, hctx, _, _, hrun, hverbatim, ?_⟩
  obtain ⟨pieces, hpieces, -, -, hread⟩ := readTemplate_render hparse .self hctx (List.forall_mem_nil _) hrun
  cases hpieces
  rw [hread hverbatim]
  decide +kernel

/-- A backslash of a template string starts an escape in its code. -/
theorem readTemplate_backslash :
    parseExpr "\x60a\\b\x60" = .ok (.template ⟨1, 1⟩ [.text "a\\b"]) ∧
    (Gen.exprTy inFunction (.template ⟨1, 1⟩ [.text "a\\b"])).Yields .initial (.template [.text "a\\b"]) .initial ∧
    readTemplate (Ty.template [.text "a\\b"]).render.toList = some [.text ['a', '\x08']] := by
  have hsegments : ∀ segment ∈ ([] : List Segment), segment.WellFormed := List.forall_mem_nil _
  have hlast : Plain "a\\b".toList := by decide
  have hsource : "\x60a\\b\x60" = templateSource [] "a\\b".toList := rfl
  refine ⟨?_, rfl, by decide +kernel⟩
  rw [hsource, parseExpr_templateSource hsegments hlast]
  rfl

end TypeForge
