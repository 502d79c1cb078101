import TypeForge.Ast.Outline
import TypeForge.Proofs.Outline.Rendering
import TypeForge.Proofs.Output.Atoms
import TypeForge.Proofs.Text.Quoting

/-!
# The lines of an outline

The line of a node says what kind of node it is, and gives the name, the number or the text that
belongs to it.  What it says can be read off its words, and where it gives a text, off what stands
between the quotes, as long as names are words and numbers are made of digits.
-/

namespace TypeForge

open TypeScript (Partwise)

/-- Whether a text is made of letters, digits and underscores, of one at least. -/
def isWordText (text : String) : Bool := text != "" && text.toList.all isWordChar

/-- What a line of an outline says. -/
inductive Line where
  | assignment | conditional | call | arguments | index | lambda | block | matching | template
  | object | renamed | tuple | numberType | stringType | assertEqual | arm
  | binary (op : BinaryOp)
  | logical (op : LogicalOp)
  | unary (op : UnaryOp)
  | field (name : String)
  | infer (name : String)
  | ident (name : String)
  | number (digits : String)
  | string (text : String)
  | chunk (text : String)
  | param (name : String)
  | letDecl (name : String)
  | sectionOf (name : String)
  | mapped (key : String) (optional : Bool)
  | named (name : String) (optional : Bool)
  | computed (optional : Bool)
  | definition (name : String) (exported : Bool)
  | importOf (symbols : List String) (source : String)

/-! ## Operators by their names -/

/-- The operator with the given name. -/
def BinaryOp.ofName? : String → Option BinaryOp
  | "Add" => some add | "Sub" => some sub | "Mul" => some mul | "Div" => some div
  | "Pow" => some pow | "Mod" => some mod | "Lt" => some lt | "Le" => some le | "Gt" => some gt
  | "Ge" => some ge | "Eq" => some eq | "NotEq" => some notEq | "Union" => some union
  | "Intersection" => some intersection
  | _ => none

/-- The operator with the given name. -/
def LogicalOp.ofName? : String → Option LogicalOp
  | "And" => some and | "Or" => some or
  | _ => none

/-- The operator with the given name. -/
def UnaryOp.ofName? : String → Option UnaryOp
  | "Negate" => some negate | "Plus" => some plus | "Not" => some not
  | _ => none

namespace Line

/-- The text of a line. -/
def text : Line → String
  | assignment => "assignment"
  | conditional => "conditional"
  | call => "call"
  | arguments => "arguments"
  | index => "member [..]"
  | lambda => "lambda"
  | block => "block"
  | matching => "match"
  | template => "template"
  | object => "object"
  | renamed => "as"
  | tuple => "tuple"
  | numberType => "keyword number"
  | stringType => "keyword string"
  | assertEqual => "assert-equal"
  | arm => "arm"
  | binary op => "binary " ++ op.name
  | logical op => "logical " ++ op.name
  | unary op => "unary " ++ op.name
  | field name => "member ." ++ name
  | infer name => "infer " ++ name
  | ident name => "ident " ++ name
  | number digits => "number " ++ digits
  | string text => "string " ++ Text.quoted text
  | chunk text => "text " ++ Text.quoted text
  | param name => "param " ++ name
  | letDecl name => "let " ++ name
  | sectionOf name => "section " ++ name
  | mapped key optional => "mapped " ++ key ++ optionalMark optional
  | named name optional => "property " ++ name ++ optionalMark optional
  | computed optional => "property [..]" ++ optionalMark optional
  | definition name exported => "definition " ++ name ++ (if exported then " (exported)" else "")
  | importOf symbols source =>
    "import \x7b" ++ ", ".intercalate symbols ++ "\x7d from " ++ Text.quoted source

/-- Whether the names in a line are words and its number is made of digits. -/
def isLegible : Line → Bool
  | field name | infer name | ident name | param name | letDecl name | sectionOf name => isWordText name
  | mapped name _ | named name _ | definition name _ => isWordText name
  | number digits => isNumber digits
  | importOf symbols _ => symbols.all isWordText
  | _ => true

/-- Whether a line has the mark of an optional property. -/
def hasMark (line : String) : Bool := line.toList.contains '?'

/-- What a text with the given words says: the names are words of it, and what is quoted stands at
the end. -/
def ofWords? (line : String) : List String → Option Line
  | ["assignment"] => some assignment
  | ["conditional"] => some conditional
  | ["call"] => some call
  | ["arguments"] => some arguments
  | ["lambda"] => some lambda
  | ["block"] => some block
  | ["match"] => some matching
  | ["template"] => some template
  | ["object"] => some object
  | ["as"] => some renamed
  | ["tuple"] => some tuple
  | ["arm"] => some arm
  | ["member"] => some index
  | ["property"] => some (computed (hasMark line))
  | ["assert", "equal"] => some assertEqual
  | ["keyword", "number"] => some numberType
  | ["keyword", "string"] => some stringType
  | ["binary", op] => (BinaryOp.ofName? op).map binary
  | ["logical", op] => (LogicalOp.ofName? op).map logical
  | ["unary", op] => (UnaryOp.ofName? op).map unary
  | ["member", name] => some (field name)
  | ["infer", name] => some (infer name)
  | ["ident", name] => some (ident name)
  | ["number", digits] => some (number digits)
  | ["param", name] => some (param name)
  | ["let", name] => some (letDecl name)
  | ["section", name] => some (sectionOf name)
  | ["mapped", key] => some (mapped key (hasMark line))
  | ["property", name] => some (named name (hasMark line))
  | ["definition", name] => some (definition name false)
  | ["definition", name, "exported"] => some (definition name true)
  | "string" :: _ => (Text.unquote (line.toList.drop 7)).map string
  | "text" :: _ => (Text.unquote (line.toList.drop 5)).map chunk
  | "import" :: _ =>
    -- the names stand between braces, the source behind them
    let list := line.toList.drop 8
    (Text.unquote ((list.dropWhile (· != '\x7d')).drop 7)).map
      (importOf (words (String.ofList (list.takeWhile (· != '\x7d')))))
  | _ => none

/-- What a text says. -/
def read? (line : String) : Option Line := ofWords? line (words line)

end Line

/-! ## Words and marks in lines -/

section

variable {p name : String}

theorem forall_isWordChar_of_isWordText (h : isWordText name = true) :
    ∀ c ∈ name.toList, isWordChar c = true := by
  rw [isWordText, Bool.and_eq_true] at h
  exact List.all_eq_true.1 h.2

theorem notMem_of_isWordText {c : Char} (hc : isWordChar c = false) (h : isWordText name = true) :
    c ∉ name.toList := by
  intro hmem
  rw [forall_isWordChar_of_isWordText h c hmem] at hc
  cases hc

theorem words_of_isWordText (h : isWordText name = true) : words name = [name] := by
  rw [isWordText, Bool.and_eq_true, bne_iff_ne] at h
  exact words_of_forall h.1 (List.all_eq_true.1 h.2)

theorem isWordText_of_isNumber (h : isNumber name = true) : isWordText name = true := by
  rw [isNumber, Bool.and_eq_true, List.all_eq_true] at h
  rw [isWordText, Bool.and_eq_true, bne_iff_ne, List.all_eq_true]
  refine ⟨?_, fun c hc => isWordChar_of_isDigit (h.2 c hc)⟩
  rintro rfl
  exact absurd h.1 (by decide)

theorem partwise_words : Partwise words := fun _ _ => words_append

/-- The words of a line that ends with a name. -/
theorem words_append_name (hp : endsApart p = true) (h : isWordText name = true) :
    words (p ++ name) = words p ++ [name] := by
  rw [words_append (.inl hp), words_of_isWordText h]

/-- The words of a line that starts with a key word. -/
theorem words_append_key (key : String) (hp : endsApart p = true) (hkey : words p = [key]) (rest : String) :
    words (p ++ rest) = key :: words rest := by
  rw [words_append (.inl hp), hkey, List.singleton_append]

theorem words_append_optionalMark (a : String) (optional : Bool) :
    words (a ++ optionalMark optional) = words a := by
  cases optional with
  | false => rw [optionalMark, if_neg Bool.false_ne_true, String.append_empty]
  | true => exact partwise_words.trail rfl rfl

/-- A name has no mark of its own. -/
theorem hasMark_append_name (hp : p.toList.contains '?' = false) (h : isWordText name = true) (optional : Bool) :
    Line.hasMark (p ++ name ++ optionalMark optional) = optional := by
  have hname : name.toList.contains '?' = false := by
    simpa using notMem_of_isWordText (by decide) h
  rw [Line.hasMark, String.toList_append, String.toList_append, List.contains_append, List.contains_append,
    hp, hname]
  cases optional <;> rfl

/-- Names with commas between them are the words of the text that they make. -/
theorem words_intercalate_names {names : List String} (h : ∀ name ∈ names, isWordText name = true) :
    words (", ".intercalate names) = names := by
  rw [partwise_words.intercalate (by decide) (by decide) (by decide) (by decide)]
  induction names with
  | nil => rfl
  | cons name names ih =>
    rw [List.forall_mem_cons] at h
    rw [List.flatMap_cons, words_of_isWordText h.1, ih h.2]
    rfl

theorem notMem_intercalate_names {c : Char} (hc : isWordChar c = false) (hcomma : c ∉ ", ".toList)
    {names : List String} (h : ∀ name ∈ names, isWordText name = true) :
    c ∉ (", ".intercalate names).toList := by
  induction names with
  | nil => exact List.not_mem_nil
  | cons name names ih =>
    rw [List.forall_mem_cons] at h
    have hname := notMem_of_isWordText hc h.1
    cases names with
    | nil => simpa using hname
    | cons next names =>
      rw [String.intercalate_cons_cons, String.toList_append, String.toList_append, List.mem_append,
        List.mem_append, not_or, not_or]
      exact ⟨⟨hname, hcomma⟩, ih h.2⟩

/-- What is quoted behind a phrase can be read there. -/
theorem unquote_behind {n : Nat} (hp : p.toList.length = n) (text : String) :
    Text.unquote ((p ++ Text.quoted text).toList.drop n) = some text := by
  rw [String.toList_append, List.drop_left' hp, Text.unquote_quoted]

end

namespace Line

theorem ofWords?_string (line : String) (ws : List String) :
    ofWords? line ("string" :: ws) = (Text.unquote (line.toList.drop 7)).map string := rfl

theorem ofWords?_chunk (line : String) (ws : List String) :
    ofWords? line ("text" :: ws) = (Text.unquote (line.toList.drop 5)).map chunk := rfl

/-- An import as it is written: the names up to the closing brace, and the source behind it. -/
theorem ofWords?_import {line : String} {names behind : List Char} (hnames : '\x7d' ∉ names)
    (hline : line.toList = "import \x7b".toList ++ (names ++ ("\x7d from ".toList ++ behind))) (ws : List String) :
    ofWords? line ("import" :: ws) = (Text.unquote behind).map (importOf (words (String.ofList names))) := by
  have hends : ∀ c ∈ ("\x7d from ".toList ++ behind).head?, c = '\x7d' := by simp
  have hlist : line.toList.drop 8 = names ++ ("\x7d from ".toList ++ behind) := by
    rw [hline, List.drop_left' (by decide)]
  change (Text.unquote (((line.toList.drop 8).dropWhile (· != '\x7d')).drop 7)).map
    (importOf (words (String.ofList ((line.toList.drop 8).takeWhile (· != '\x7d'))))) = _
  rw [hlist, dropWhile_mark hnames hends, takeWhile_mark hnames hends, List.drop_left' (by decide)]

/-- What a line says can be read off its words. -/
theorem read?_of_words {l : Line} {ws : List String} (hwords : words l.text = ws)
    (h : ofWords? l.text ws = some l) : read? l.text = some l := by
  rw [read?, hwords, h]

/-- **A line says what it is meant to.** -/
theorem read?_text {l : Line} (h : l.isLegible = true) : read? l.text = some l := by
  cases l with
  | assignment | conditional | call | arguments | index | lambda | block | matching | template
  | object | renamed | tuple | numberType | stringType | assertEqual | arm => rfl
  | binary op => cases op <;> rfl
  | logical op => cases op <;> rfl
  | unary op => cases op <;> rfl
  | field name | infer name | ident name | param name | letDecl name | sectionOf name =>
    exact read?_of_words (words_append_name (by decide) h) rfl
  | number digits =>
    have hdigits : isNumber digits = true := h
    exact read?_of_words (words_append_name (by decide) (isWordText_of_isNumber hdigits)) rfl
  | string content =>
    refine read?_of_words (words_append_key "string" (by decide) (by decide) (Text.quoted content)) ?_
    rw [ofWords?_string]
    exact congrArg (Option.map string) (unquote_behind (by decide) content)
  | chunk content =>
    refine read?_of_words (words_append_key "text" (by decide) (by decide) (Text.quoted content)) ?_
    rw [ofWords?_chunk]
    exact congrArg (Option.map chunk) (unquote_behind (by decide) content)
  | computed optional => cases optional <;> rfl
  | mapped key optional =>
    -- the mark adds no word, and no name has one
    have hwords : words ("mapped " ++ key ++ optionalMark optional) = ["mapped", key] := by
      rw [words_append_optionalMark, words_append_name (by decide) h]
      rfl
    refine read?_of_words hwords ?_
    exact congrArg (some <| mapped key ·) (hasMark_append_name (by decide) h optional)
  | named name optional =>
    have hwords : words ("property " ++ name ++ optionalMark optional) = ["property", name] := by
      rw [words_append_optionalMark, words_append_name (by decide) h]
      rfl
    refine read?_of_words hwords ?_
    exact congrArg (some <| named name ·) (hasMark_append_name (by decide) h optional)
  | definition name exported =>
    have hname : words ("definition " ++ name) = ["definition", name] := words_append_name (by decide) h
    cases exported with
    | false =>
      have hwords : words ("definition " ++ name ++ "") = ["definition", name] := by
        rw [String.append_empty, hname]
      exact read?_of_words hwords rfl
    | true =>
      have hwords : words ("definition " ++ name ++ " (exported)") = ["definition", name, "exported"] := by
        rw [words_append (.inr (by decide)), hname]
        rfl
      exact read?_of_words hwords rfl
  | importOf symbols source =>
    have hnames : ∀ name ∈ symbols, isWordText name = true := List.all_eq_true.1 h
    have htext : (importOf symbols source).text =
        "import \x7b" ++ (", ".intercalate symbols ++ ("\x7d from " ++ Text.quoted source)) := by
      change "import \x7b" ++ ", ".intercalate symbols ++ "\x7d from " ++ Text.quoted source = _
      rw [String.append_assoc, String.append_assoc]
    have hline : (importOf symbols source).text.toList = "import \x7b".toList ++
        ((", ".intercalate symbols).toList ++ ("\x7d from ".toList ++ (Text.quoted source).toList)) := by
      rw [htext, String.toList_append, String.toList_append, String.toList_append]
    refine read?_of_words (htext ▸ words_append_key "import" (by decide) (by decide) _) ?_
    rw [ofWords?_import (notMem_intercalate_names (by decide) (by decide) hnames) hline,
      Text.unquote_quoted, Option.map_some, String.ofList_toList, words_intercalate_names hnames]

/-! ## Lines of text -/

theorem isLine_phrase {p : String} (h : (p.toList.head?.any (· != ' ') && !p.toList.contains '\n') = true) :
    IsLine p := by
  rw [Bool.and_eq_true] at h
  refine ⟨?_, by simpa using h.2⟩
  cases hp : p.toList with
  | nil => simp [hp] at h
  | cons c cs => exact ⟨c, cs, rfl, by simpa [hp] using h.1⟩

theorem isLine_append {p rest : String} (hp : IsLine p) (h : '\n' ∉ rest.toList) : IsLine (p ++ rest) := by
  obtain ⟨⟨c, cs, hcs, hc⟩, hnewline⟩ := hp
  refine ⟨⟨c, cs ++ rest.toList, ?_, hc⟩, ?_⟩
  · rw [String.toList_append, hcs, List.cons_append]
  · rw [String.toList_append, List.mem_append, not_or]
    exact ⟨hnewline, h⟩

theorem newline_notMem_optionalMark (optional : Bool) : '\n' ∉ (optionalMark optional).toList := by
  cases optional <;> decide

/-- **A line can stand in an outline.** -/
theorem isLine_text {l : Line} (h : l.isLegible = true) : IsLine l.text := by
  have hname {name : String} (h : isWordText name = true) : '\n' ∉ name.toList :=
    notMem_of_isWordText (by decide) h
  cases l with
  | assignment | conditional | call | arguments | index | lambda | block | matching | template
  | object | renamed | tuple | numberType | stringType | assertEqual | arm => exact isLine_phrase (by decide)
  | binary op => exact isLine_append (isLine_phrase (by decide)) (by cases op <;> decide)
  | logical op => exact isLine_append (isLine_phrase (by decide)) (by cases op <;> decide)
  | unary op => exact isLine_append (isLine_phrase (by decide)) (by cases op <;> decide)
  | field name | infer name | ident name | param name | letDecl name | sectionOf name =>
    exact isLine_append (isLine_phrase (by decide)) (hname h)
  | number digits =>
    have hdigits : isNumber digits = true := h
    exact isLine_append (isLine_phrase (by decide)) (hname (isWordText_of_isNumber hdigits))
  | string content | chunk content =>
    exact isLine_append (isLine_phrase (by decide)) (Text.newline_notMem_quoted content)
  | mapped name optional | named name optional =>
    exact isLine_append (isLine_append (isLine_phrase (by decide)) (hname h)) (newline_notMem_optionalMark optional)
  | computed optional => exact isLine_append (isLine_phrase (by decide)) (newline_notMem_optionalMark optional)
  | definition name exported =>
    exact isLine_append (isLine_append (isLine_phrase (by decide)) (hname h)) (by cases exported <;> decide)
  | importOf symbols source =>
    have hnames : ∀ name ∈ symbols, isWordText name = true := List.all_eq_true.1 h
    exact isLine_append (isLine_append (isLine_append (isLine_phrase (by decide))
      (notMem_intercalate_names (by decide) (by decide) hnames)) (by decide)) (Text.newline_notMem_quoted source)

end Line

end TypeForge
