import TypeForge.Proofs.Generate.Layout
import TypeForge.Proofs.Output.Words
import TypeForge.Proofs.Parser.RoundTrip

/-!
# Strings survive compilation

A string of the source language has no escapes: what stands between its quotes is its text, and the
text may have line breaks, backslashes and the other quote in it.  A string literal of the target
language has escapes for these.  Each character is written so that a reader of the literal gets it
back and stands right behind what was written for it, so the reader gets back the whole text and
finds the end of the literal, whatever is behind it.
-/

namespace TypeForge

namespace TypeScript

/-! ## The reader -/

/-- What a character behind a backslash stands for. -/
def literalEscape? (c : Char) : Option Char :=
  if c = '\\' ∨ c = '\x22' then some c
  else if c = 'n' then some '\n'
  else if c = 'r' then some '\r'
  else none

/-- The text up to the quote that ends a literal, and what is behind that quote; `escaped` tells
whether a backslash has been read.  There is none if the quote is missing, if a line break stands in
front of it, or if an escape has no meaning. -/
def scanLiteral (escaped : Bool) : List Char → Option (List Char × List Char)
  | [] => none
  | c :: cs =>
    if escaped then (literalEscape? c).bind fun c => (scanLiteral false cs).map (Prod.map (c :: ·) id)
    else if c = '\x22' then some ([], cs)
    else if c = '\n' ∨ c = '\r' then none
    else if c = '\\' then scanLiteral true cs
    else (scanLiteral false cs).map (Prod.map (c :: ·) id)

/-- The text of the string literal at the front, and what is behind the literal. -/
def readLiteral : List Char → Option (String × List Char)
  | [] => none
  | c :: cs => if c = '\x22' then (scanLiteral false cs).map (Prod.map String.ofList id) else none

/-! ## Literals -/

/-- An escape stands for the character it was made of. -/
theorem literalEscape?_of_mem {c d : Char} (h : (c, d) ∈ literalEscapes) : literalEscape? d = some c := by
  have hall : ∀ p ∈ literalEscapes, literalEscape? p.2 = some p.1 := by decide
  exact hall _ h

/-- **A written character is read as that character**, and nothing behind it is touched. -/
theorem scanLiteral_literalChar (c : Char) (rest : List Char) :
    scanLiteral false (literalChar c ++ rest) = (scanLiteral false rest).map (Prod.map (c :: ·) id) := by
  rcases literalChar_cases c with ⟨⟨hbackslash, hquote, hfeed, hreturn⟩, hliteral⟩ | ⟨d, hd, hliteral⟩
  · have hbreak : ¬(c = '\n' ∨ c = '\r') := not_or.2 ⟨hfeed, hreturn⟩
    rw [hliteral, List.singleton_append, scanLiteral, if_neg Bool.false_ne_true, if_neg hquote, if_neg hbreak,
      if_neg hbackslash]
  · have hopen : scanLiteral false ('\\' :: d :: rest) = scanLiteral true (d :: rest) := rfl
    rw [hliteral, List.cons_append, List.singleton_append, hopen, scanLiteral, if_pos rfl,
      literalEscape?_of_mem hd, Option.bind_some]

theorem scanLiteral_flatMap (cs rest : List Char) :
    scanLiteral false (cs.flatMap literalChar ++ '\x22' :: rest) = some (cs, rest) := by
  induction cs with
  | nil => rfl
  | cons c cs ih =>
    rw [List.flatMap_cons, List.append_assoc, scanLiteral_literalChar, ih]
    rfl

/-- **A string literal is read as the string it was made of**, and what is behind it is left. -/
theorem readLiteral_stringLiteral (s : String) (rest : List Char) :
    readLiteral ((stringLiteral s).toList ++ rest) = some (s, rest) := by
  have htext : (stringLiteral s).toList ++ rest =
      '\x22' :: (s.toList.flatMap literalChar ++ '\x22' :: rest) := by
    simp [stringLiteral]
  rw [htext, readLiteral, if_pos rfl, scanLiteral_flatMap, Option.map_some, Prod.map_apply, String.ofList_toList,
    id]

theorem stringLiteral_injective : Function.Injective stringLiteral := by
  intro s s' h
  have hread := readLiteral_stringLiteral s []
  rw [h, readLiteral_stringLiteral] at hread
  exact (congrArg Prod.fst (Option.some.inj hread)).symm

end TypeScript

/-! ## Strings of the source language -/

/-- A string of the source language: the quote around its text does not occur in it. -/
structure SourceString where
  quote : Char
  text : String
  isQuote : isQuote quote = true
  notMem : quote ∉ text.toList

namespace SourceString

variable (q : SourceString)

/-- A string as it is written. -/
def source : String := String.ofList (q.quote :: q.text.toList ++ [q.quote])

/-- The word that a string is read as. -/
def word : Word := ⟨.string, q.source⟩

theorem legible : q.word.Legible := .string q.isQuote q.notMem

theorem unquoted_source : Parser.unquoted q.source = q.text := by
  simp [Parser.unquoted, source]

/-- Whatever is behind a string, it comes next. -/
theorem ofCursor_eq (rest : List Char) (pos : Position) :
    Stream.ofCursor ⟨q.source.toList ++ rest, pos⟩ =
      .ok ⟨some ⟨.string, q.source, pos⟩, ⟨rest, pos.advanceOver q.source.toList⟩⟩ := by
  have hquote : Text.isWhiteSpace q.quote = false ∧ q.quote ≠ '/' := by
    have hmem := q.isQuote
    rw [TypeForge.isQuote, Bool.or_eq_true, beq_iff_eq, beq_iff_eq] at hmem
    rcases hmem with h | h <;> rw [h] <;> decide
  have htext : q.source.toList = q.quote :: (q.text.toList ++ [q.quote]) := by simp [source]
  have hgap : gap (q.quote :: (q.text.toList ++ [q.quote] ++ rest)) = .closed [] _ :=
    gap_eq_closed hquote.1 fun heq => absurd heq hquote.2
  have hnext : Cursor.next ⟨q.source.toList ++ rest, pos⟩ =
      (some (.ok ⟨.string, q.source, pos⟩), ⟨rest, pos.advanceOver q.source.toList⟩) := by
    rw [htext, List.cons_append]
    unfold Cursor.next
    simp only [hgap]
    rw [reads_string rest q.isQuote q.notMem]
    simp [Cursor.itemAt, Cursor.past, source]
  unfold Stream.ofCursor
  rw [hnext]

section

variable (pos : Position) (cur : Cursor)

theorem stringLiteral_eq :
    Parser.stringLiteral ⟨some ⟨.string, q.source, pos⟩, cur⟩ =
      (Stream.ofCursor cur).map fun s => (q.text, s) := by
  rw [← q.unquoted_source]
  change ((Stream.ofCursor cur >>= fun s => pure ((⟨.string, q.source, pos⟩ : Token), s)) >>=
    fun r => pure (Parser.unquoted r.1.text, r.2)) = _
  cases Stream.ofCursor cur with
  | ok s => rfl
  | error e => rfl

/-- **A string is parsed to its text, wherever an expression may stand**; only what is behind it may
be wrong. -/
theorem primary_eq (expr : Nat → Parser Expr) :
    Parser.primary Parser.windowTest expr ⟨some ⟨.string, q.source, pos⟩, cur⟩ =
      (Stream.ofCursor cur).map fun s => (.string pos q.text, s) := by
  change (Parser.stringLiteral ⟨some ⟨.string, q.source, pos⟩, cur⟩ >>=
    fun r => pure (Expr.string pos r.1, r.2)) = _
  rw [stringLiteral_eq]
  cases Stream.ofCursor cur with
  | ok s => rfl
  | error e => rfl

end

end SourceString

/-! ## Programs of one item -/

namespace Parser

variable {n : Nat}

/-- A program is one item if the item takes all words. -/
theorem accepts_program_of_item {w : Word} {ws : List Word} {item : TopLevel}
    (h : ∀ k (t : Token), t.word = w → Accepts k (topLevel t (exprWith windowTest 0)) (w :: ws) []
      fun a => a.unlocated = item.unlocated) :
    Accepts n (program windowTest) (w :: ws) [] fun a => a.unlocated = Program.unlocated ⟨[item]⟩ := by
  have hitems : Accepts n (topLevels (exprWith windowTest 0)) (w :: ws) []
      fun as => as.map TopLevel.unlocated = [item.unlocated] := by
    refine accepts_fix fun m _ => accepts_get fun s hshows => ?_
    obtain ⟨t, hcurrent, hword, -, -⟩ := hshows
    simp only [hcurrent]
    rw [← List.append_nil (w :: ws)]
    refine (h m t hword).bind fun a ha k hk => ?_
    have hend : Accepts k (topLevels (exprWith windowTest 0)) [] [] fun as => as.map TopLevel.unlocated = [] :=
      accepts_topLevels (List.forall_mem_nil _)
    exact Accepts.map (Accepts.below hend (by simp at hk; omega)) fun as has => by simp [ha, has]
  rw [← List.append_nil (w :: ws)]
  refine Accepts.bind hitems fun items hitems k _ => ?_
  cases items with
  | nil => cases hitems
  | cons item items => exact accepts_pure (congrArg Program.mk hitems)

end Parser

theorem parseUnlocated_of_accepts {ws : List Word} {program : Program} (hws : ∀ w ∈ ws, w.Legible)
    (h : ∀ n, Parser.Accepts n (Parser.program Parser.windowTest) ws [] fun a => a.unlocated = program.unlocated) :
    parseUnlocated (" ".intercalate (ws.map Word.text)) = .ok program.unlocated := by
  obtain ⟨s, hstream, hshows, -⟩ := Stream.shows_ofCursor (Cursor.shows_intercalate hws)
  rw [← List.append_nil ws] at hshows
  obtain ⟨parsed, s', hrun, -, -, hparsed⟩ := h _ (Nat.le_refl s.size) hshows
  rw [parseUnlocated, parseProgram_of_ofString hstream, hrun]
  exact congrArg Except.ok hparsed

/-- The code of a program of one item that becomes a declaration without imports and lifted
functions. -/
theorem compile_of_item {w : Word} {ws : List Word} (item : TopLevel) {d : TypeScript.Declaration}
    (hws : ∀ v ∈ w :: ws, v.Legible)
    (h : ∀ k (t : Token), t.word = w → Parser.Accepts k (Parser.topLevel t (Parser.exprWith Parser.windowTest 0))
      (w :: ws) [] fun a => a.unlocated = item.unlocated)
    (hcode : Program.generate ⟨[item.unlocated]⟩ = .ok ⟨[], [], [d]⟩) (target : Target) :
    compile target (" ".intercalate ((w :: ws).map Word.text)) = .ok (d.render ++ "\n") := by
  have hparse := parseUnlocated_of_accepts hws fun _ => Parser.accepts_program_of_item h
  have hcompile := compile_eq_of_parseUnlocated target (" ".intercalate ((w :: ws).map Word.text))
  have hprogram : Program.unlocated ⟨[item]⟩ = ⟨[item.unlocated]⟩ := rfl
  simp only [hparse, hprogram, hcode] at hcompile
  have hrender : TypeScript.Module.render ⟨[], [], [d]⟩ target = d.render ++ "\n" :=
    congrArg (· ++ "\n") (String.intercalate_singleton ..)
  cases hresult : compile target (" ".intercalate ((w :: ws).map Word.text)) with
  | ok output =>
    rw [hresult] at hcompile
    rw [← hrender]
    exact congrArg Except.ok (Except.ok.inj hcompile)
  | error e =>
    rw [hresult] at hcompile
    cases hcompile

namespace SourceString

variable {q : SourceString} {n : Nat} {rest : List Word}

open TypeForge.Parser

theorem accepts_word :
    Accepts n stringLiteral [q.word] rest fun found => found = q.text :=
  (accepts_unquoted q.source).imp fun _ h => h.trans q.unquoted_source

theorem accepts_exprWith :
    Accepts n (exprWith windowTest 0) [q.word] [] fun a => a.unlocated = .string .start q.text := by
  have hkind : q.word.kind = .string := rfl
  refine Parser.accepts_exprWith (e := .string .start q.text) (fun m => operand_of_primary ?_) rfl
  refine accepts_primary_atom (by simp [hkind]) rfl
    (lambdaAhead_eq_false _ (by simp [hkind]) (by simp [hkind])) fun t ht => ?_
  have htoken : t.kind = .string := congrArg Word.kind ht
  simp only [atom, htoken]
  exact accepts_word.map fun found hfound => by rw [hfound]; rfl

/-- The words of a definition by a string. -/
def definitionWords (q : SourceString) (name : String) : List Word :=
  [Kind.typeKw.word, nameWord name, Kind.assign.word, q.word]

/-- The words of an import from the module that a string names. -/
def importWords (q : SourceString) (name : String) : List Word :=
  [Kind.importKw.word, Kind.lbrace.word, nameWord name, Kind.rbrace.word, Kind.fromKw.word, q.word]

theorem accepts_definition (name : String) {t : Token} (ht : t.word = Kind.typeKw.word) :
    Accepts n (topLevel t (exprWith windowTest 0)) (q.definitionWords name) []
      fun a => a.unlocated = .definition ⟨.start, false, name, [], .string .start q.text⟩ := by
  have hkind : t.kind = .typeKw := congrArg Word.kind ht
  have hdefinition : Accepts n (definition (exprWith windowTest 0)) (q.definitionWords name) []
      fun d => (TopLevel.definition d).unlocated =
        .definition ⟨.start, false, name, [], .string .start q.text⟩ := by
    refine accepts_get fun s _ => (accepts_take_none rfl).silent fun found hfound => ?_
    subst hfound
    refine accepts_consume.cons fun _ _ k₁ hk₁ => (accepts_name name).cons fun found hfound k₂ hk₂ => ?_
    subst hfound
    refine accepts_get fun s' hshows => ?_
    have hlparen : s'.at? .lparen = false := at?_eq_startsWith hshows .lparen
    rw [if_neg (by rw [hlparen]; exact Bool.false_ne_true)]
    refine (accepts_return []).silent fun ps hps => accepts_consume.cons fun _ _ k₃ hk₃ => ?_
    refine accepts_exprWith.cons fun body hbody k₄ hk₄ => ?_
    exact (accepts_take_none rfl).map fun _ _ => by rw [hps, TopLevel.unlocated, hbody]; rfl
  simp only [topLevel, hkind]
  exact hdefinition.map fun _ hd => hd

theorem accepts_importOf (name : String) {t : Token} (ht : t.word = Kind.importKw.word) :
    Accepts n (topLevel t (exprWith windowTest 0)) (q.importWords name) []
      fun a => a.unlocated = .importOf ⟨.start, [name], q.text⟩ := by
  have hkind : t.kind = .importKw := congrArg Word.kind ht
  have himport : Accepts n importOf (q.importWords name) []
      fun i => (TopLevel.importOf i).unlocated = .importOf ⟨.start, [name], q.text⟩ := by
    refine accepts_get fun s _ => ?_
    refine accepts_consume.cons fun _ _ k₁ hk₁ => accepts_consume.cons fun _ _ k₂ hk₂ => ?_
    have hnames : Accepts k₂ (separated .comma Parser.name) [nameWord name]
        [Kind.rbrace.word, Kind.fromKw.word, q.word] fun found => found = [name] := by
      refine (accepts_name name).cons fun found hfound k hk => ?_
      subst hfound
      have hmore : Accepts k (moreSeparated .comma Parser.name) [] [Kind.rbrace.word, Kind.fromKw.word, q.word]
          fun found => found = [] := by
        refine accepts_fix fun m _ => (accepts_take_none rfl).silent fun found hfound => ?_
        subst hfound
        exact accepts_pure rfl
      exact hmore.map fun _ hnames => by rw [hnames]
    refine hnames.cons fun symbols hsymbols k₃ hk₃ => ?_
    subst hsymbols
    refine accepts_consume.cons fun _ _ k₄ hk₄ => accepts_consume.cons fun _ _ k₅ hk₅ => ?_
    refine accepts_word.cons fun source hsource k₆ hk₆ => ?_
    subst hsource
    exact (accepts_take_none rfl).map fun _ _ => rfl
  simp only [topLevel, hkind]
  exact himport.map fun _ hi => hi

section

variable (q) {name : String} (hname : isIdentifier name = true) (target : Target)

include hname

/-- A definition by a string becomes one by the literal of its text. -/
theorem compile_definition :
    compile target ("type " ++ name ++ " = " ++ q.source) =
      .ok ("type " ++ name ++ " = " ++ TypeScript.stringLiteral q.text ++ ";\n") := by
  have hlegible : ∀ w ∈ q.definitionWords name, w.Legible := by
    simp only [definitionWords, List.forall_mem_cons]
    exact ⟨legible_word rfl, .identifier hname, legible_word rfl, q.legible, List.forall_mem_nil _⟩
  have hcompile := compile_of_item (.definition ⟨.start, false, name, [], .string .start q.text⟩) hlegible
    (fun _ _ ht => accepts_definition name ht) rfl target
  have hsource : " ".intercalate ((q.definitionWords name).map Word.text) =
      "type " ++ name ++ " = " ++ q.source := by
    change " ".intercalate ["type", name, "=", q.source] = _
    apply String.toList_injective
    simp
  rw [← hsource]
  refine hcompile.trans (congrArg Except.ok ?_)
  change "" ++ ("type " ++ name ++ " = " ++ TypeScript.stringLiteral q.text) ++ ";" ++ "\n" = _
  apply String.toList_injective
  simp

/-- An import from a module becomes one from the literal of its name. -/
theorem compile_import :
    compile target ("import \x7b " ++ name ++ " \x7d from " ++ q.source) =
      .ok ("import \x7b " ++ name ++ " \x7d from " ++ TypeScript.stringLiteral q.text ++ ";\n") := by
  have hlegible : ∀ w ∈ q.importWords name, w.Legible := by
    simp only [importWords, List.forall_mem_cons]
    exact ⟨legible_word rfl, legible_word rfl, .identifier hname, legible_word rfl, legible_word rfl, q.legible,
      List.forall_mem_nil _⟩
  have hcompile := compile_of_item (.importOf ⟨.start, [name], q.text⟩) hlegible
    (fun _ _ ht => accepts_importOf name ht) rfl target
  have hsource : " ".intercalate ((q.importWords name).map Word.text) =
      "import \x7b " ++ name ++ " \x7d from " ++ q.source := by
    change " ".intercalate ["import", "\x7b", name, "\x7d", "from", q.source] = _
    apply String.toList_injective
    simp
  rw [← hsource]
  refine hcompile.trans (congrArg Except.ok ?_)
  change "import \x7b " ++ name ++ " \x7d from " ++ TypeScript.stringLiteral q.text ++ ";" ++ "\n" = _
  apply String.toList_injective
  simp

end

end SourceString

open TypeScript in
/-- **Strings survive compilation.**  A reader of string literals gets back the string that a literal
was made of and stops at its end, whatever is behind it; so different strings have different
literals.  A string of the source language is parsed to the text between its quotes wherever it
stands, whatever is behind it, and this text is what is read from its code: in any place and state of
the generator, and in whole programs. -/
theorem strings_survive :
    (∀ (s : String) (rest : List Char), readLiteral ((stringLiteral s).toList ++ rest) = some (s, rest)) ∧
      Function.Injective stringLiteral ∧
      ∀ q : SourceString,
        (∀ (rest : List Char) (pos : Position), ∃ s, Stream.ofCursor ⟨q.source.toList ++ rest, pos⟩ = .ok s ∧
          Parser.stringLiteral s =
            (Stream.ofCursor ⟨rest, pos.advanceOver q.source.toList⟩).map (fun s' => (q.text, s')) ∧
          ∀ expr, Parser.primary Parser.windowTest expr s =
            (Stream.ofCursor ⟨rest, pos.advanceOver q.source.toList⟩).map
              fun s' => (.string pos q.text, s')) ∧
        (∀ (ctx : Context) (pos : Position) (s : GenState), ∃ t,
          (Gen.exprTy ctx (.string pos q.text)).Yields s t s ∧
          ∀ rest, readLiteral (t.render.toList ++ rest) = some (q.text, rest)) ∧
        ∀ (name : String) (target : Target), isIdentifier name = true →
          compile target ("type " ++ name ++ " = " ++ q.source) =
              .ok ("type " ++ name ++ " = " ++ stringLiteral q.text ++ ";\n") ∧
            compile target ("import \x7b " ++ name ++ " \x7d from " ++ q.source) =
              .ok ("import \x7b " ++ name ++ " \x7d from " ++ stringLiteral q.text ++ ";\n") := by
  refine ⟨readLiteral_stringLiteral, stringLiteral_injective, fun q => ⟨fun rest pos => ?_, fun ctx pos s => ?_, ?_⟩⟩
  · exact ⟨_, q.ofCursor_eq rest pos, q.stringLiteral_eq pos _, q.primary_eq pos _⟩
  · refine ⟨.string q.text, ?_, readLiteral_stringLiteral q.text⟩
    rw [Gen.exprTy]
    exact Gen.yields_pure.2 ⟨rfl, rfl⟩
  · exact fun name target hname => ⟨q.compile_definition hname target, q.compile_import hname target⟩

/-- A line break, a backslash and the other quote between single quotes. -/
def awkwardString : SourceString := ⟨'\x27', "a\n\\\"", rfl, by decide⟩

theorem strings_survive_awkwardString :
    isIdentifier "t" = true ∧
      compile .published "type t = 'a\n\\\"'" = .ok "type t = \"a\\n\\\\\\\"\";\n" := by
  have hsource : "type " ++ "t" ++ " = " ++ awkwardString.source = "type t = 'a\n\\\"'" := by decide
  have hcode : "type " ++ "t" ++ " = " ++ TypeScript.stringLiteral awkwardString.text ++ ";\n" =
      "type t = \"a\\n\\\\\\\"\";\n" := by decide
  have hname : isIdentifier "t" = true := by decide
  rw [← hsource, ← hcode]
  exact ⟨hname, ((strings_survive.2.2 awkwardString).2.2 "t" .published hname).1⟩

end TypeForge
