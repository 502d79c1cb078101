import Mathlib.Data.List.Forall2
import TypeForge.Proofs.Outline.Lines
import TypeForge.Proofs.Printing

/-!
# Reading outlines

The outline of a syntax tree shows everything but positions: the tree can be put together again
from the bottom up, each node from what its line says and from what stands below it.  Optional parts
and lists of parts need no marks of their own, since their lines tell parameters, arms, properties
and the like from expressions.
-/

namespace TypeForge

/-! ## Legible trees -/

mutual

/-- Whether the names in an expression are words and its numbers are made of digits. -/
@[simp] def Expr.isLegible : Expr → Bool
  | .assignment _ lhs rhs | .binary _ _ lhs rhs | .logical _ _ lhs rhs | .index _ lhs rhs =>
    lhs.isLegible && rhs.isLegible
  | .unary _ _ operand => operand.isLegible
  | .conditional _ test consequent alternate =>
    test.isLegible && consequent.isLegible && alternate.isLegible
  | .call _ callee args => callee.isLegible && legibleExprs args
  | .field _ object name => object.isLegible && isWordText name
  | .lambda _ params body => legibleParams params && body.isLegible
  | .block _ body => legibleStmts body
  | .matching _ scrutinee arms => scrutinee.isLegible && legibleArms arms
  | .template _ parts => legibleParts parts
  | .object _ properties => legibleProperties properties
  | .mapped _ key union renamed _ value =>
    isWordText key && union.isLegible && legibleOption renamed && value.isLegible
  | .tuple _ elements => legibleExprs elements
  | .infer _ name bound => isWordText name && legibleOption bound
  | .ident _ name => isWordText name
  | .number _ digits => isNumber digits
  | .string .. | .numberType _ | .stringType _ => true

/-- Whether an optional part is legible. -/
@[simp] def legibleOption : Option Expr → Bool
  | none => true
  | some e => e.isLegible

/-- Whether all expressions are legible. -/
@[simp] def legibleExprs : List Expr → Bool
  | [] => true
  | e :: es => e.isLegible && legibleExprs es

/-- Whether all parameters are legible. -/
@[simp] def legibleParams : List Param → Bool
  | [] => true
  | .mk _ name bound :: ps => isWordText name && legibleOption bound && legibleParams ps

/-- Whether all statements are legible. -/
@[simp] def legibleStmts : List Stmt → Bool
  | [] => true
  | .letDecl _ name value :: ss => isWordText name && value.isLegible && legibleStmts ss
  | .assertEqual _ left right :: ss => left.isLegible && right.isLegible && legibleStmts ss
  | .expr _ value :: ss => value.isLegible && legibleStmts ss

/-- Whether all match arms are legible. -/
@[simp] def legibleArms : List Arm → Bool
  | [] => true
  | .mk _ pattern result :: as => pattern.isLegible && result.isLegible && legibleArms as

/-- Whether all parts of a template string are legible; their texts may be anything. -/
@[simp] def legibleParts : List Part → Bool
  | [] => true
  | .text _ :: ps => legibleParts ps
  | .expr value :: ps => value.isLegible && legibleParts ps

/-- Whether all properties are legible. -/
@[simp] def legibleProperties : List Property → Bool
  | [] => true
  | .named _ name _ value :: ps => isWordText name && value.isLegible && legibleProperties ps
  | .computed _ key _ value :: ps => key.isLegible && value.isLegible && legibleProperties ps

end

/-- Whether the names in a top-level item are words and its numbers are made of digits. -/
def TopLevel.isLegible : TopLevel → Bool
  | .definition d => isWordText d.name && legibleParams d.params && d.body.isLegible
  | .sectionOf s => isWordText s.name && legibleStmts s.body
  | .importOf i => i.symbols.all isWordText

/-- Whether the names in a program are words and its numbers are made of digits. -/
def Program.isLegible (program : Program) : Bool := program.body.all TopLevel.isLegible

/-! ## Fragments -/

/-- What a node of an outline can stand for. -/
inductive Fragment where
  | expr (e : Expr)
  | arguments (es : List Expr)
  | renamed (e : Expr)
  | param (p : Param)
  | stmt (s : Stmt)
  | arm (a : Arm)
  | chunk (text : String)
  | property (p : Property)
  | item (t : TopLevel)

namespace Fragment

/-- The expression that a fragment is. -/
def expr? : Fragment → Option Expr
  | expr e => some e
  | _ => none

/-- The statement that a fragment is; an expression is one as well. -/
def stmt? : Fragment → Option Stmt
  | expr e => some (.expr .start e)
  | stmt s => some s
  | _ => none

/-- The match arm that a fragment is. -/
def arm? : Fragment → Option Arm
  | arm a => some a
  | _ => none

/-- The part of a template string that a fragment is. -/
def part? : Fragment → Option Part
  | expr e => some (.expr e)
  | chunk text => some (.text text)
  | _ => none

/-- The property that a fragment is. -/
def property? : Fragment → Option Property
  | property p => some p
  | _ => none

/-- Parameters and the body behind them. -/
def signature? : List Fragment → Option (List Param × Expr)
  | [expr body] => some ([], body)
  | param p :: fs => (signature? fs).map (Prod.map (p :: ·) id)
  | _ => none

/-- The fragment of a statement. -/
def ofStmt : Stmt → Fragment
  | .expr _ value => expr value
  | s => stmt s

/-- The fragment of a part of a template string. -/
def ofPart : Part → Fragment
  | .text text => chunk text
  | .expr value => expr value

/-- The fragment of arguments, if there are any. -/
def ofArgs : List Expr → List Fragment
  | [] => []
  | es => [arguments es]

end Fragment

/-- What a node stands for whose line says what it says and whose children stand for the given
fragments. -/
def Fragment.ofNode? : Line → List Fragment → Option Fragment
  | .assignment, [.expr target, .expr value] => some (.expr (.assignment .start target value))
  | .binary op, [.expr lhs, .expr rhs] => some (.expr (.binary .start op lhs rhs))
  | .logical op, [.expr lhs, .expr rhs] => some (.expr (.logical .start op lhs rhs))
  | .unary op, [.expr operand] => some (.expr (.unary .start op operand))
  | .conditional, [.expr test, .expr consequent, .expr alternate] =>
    some (.expr (.conditional .start test consequent alternate))
  | .call, [.expr callee] => some (.expr (.call .start callee []))
  | .call, [.expr callee, .arguments args] => some (.expr (.call .start callee args))
  | .arguments, fs => (fs.mapM expr?).map .arguments
  | .field name, [.expr object] => some (.expr (.field .start object name))
  | .index, [.expr object, .expr key] => some (.expr (.index .start object key))
  | .lambda, fs => (signature? fs).map fun (params, body) => .expr (.lambda .start params body)
  | .block, fs => (fs.mapM stmt?).map fun body => .expr (.block .start body)
  | .matching, .expr scrutinee :: fs => (fs.mapM arm?).map fun arms => .expr (.matching .start scrutinee arms)
  | .template, fs => (fs.mapM part?).map fun parts => .expr (.template .start parts)
  | .object, fs => (fs.mapM property?).map fun properties => .expr (.object .start properties)
  | .mapped key optional, [.expr union, .expr value] => some (.expr (.mapped .start key union none optional value))
  | .mapped key optional, [.expr union, .renamed e, .expr value] =>
    some (.expr (.mapped .start key union (some e) optional value))
  | .renamed, [.expr e] => some (.renamed e)
  | .tuple, fs => (fs.mapM expr?).map fun elements => .expr (.tuple .start elements)
  | .infer name, [] => some (.expr (.infer .start name none))
  | .infer name, [.expr bound] => some (.expr (.infer .start name (some bound)))
  | .ident name, [] => some (.expr (.ident .start name))
  | .number digits, [] => some (.expr (.number .start digits))
  | .string text, [] => some (.expr (.string .start text))
  | .numberType, [] => some (.expr (.numberType .start))
  | .stringType, [] => some (.expr (.stringType .start))
  | .param name, [] => some (.param (.mk .start name none))
  | .param name, [.expr bound] => some (.param (.mk .start name (some bound)))
  | .letDecl name, [.expr value] => some (.stmt (.letDecl .start name value))
  | .assertEqual, [.expr left, .expr right] => some (.stmt (.assertEqual .start left right))
  | .arm, [.expr pattern, .expr result] => some (.arm (.mk .start pattern result))
  | .chunk text, [] => some (.chunk text)
  | .named name optional, [.expr value] => some (.property (.named .start name optional value))
  | .computed optional, [.expr key, .expr value] => some (.property (.computed .start key optional value))
  | .definition name exported, fs =>
    (signature? fs).map fun (params, body) => .item (.definition ⟨.start, exported, name, params, body⟩)
  | .sectionOf name, fs => (fs.mapM stmt?).map fun body => .item (.sectionOf ⟨.start, name, body⟩)
  | .importOf symbols source, [] => some (.item (.importOf ⟨.start, symbols, source⟩))
  | _, _ => none

mutual

/-- What an outline stands for. -/
def Outline.fragment? : Outline → Option Fragment
  | .node line children => do
    let l ← Line.read? line
    let fs ← fragments? children
    Fragment.ofNode? l fs

/-- What neighbouring outlines stand for. -/
def fragments? : List Outline → Option (List Fragment)
  | [] => some []
  | o :: os => do
    let f ← o.fragment?
    let fs ← fragments? os
    some (f :: fs)

end

/-! ## Outlines that can be read -/

/-- An outline whose text can be read, and that stands for the given fragment. -/
structure Outline.Reads (o : Outline) (f : Fragment) : Prop where
  tidy : o.Tidy
  fragment : o.fragment? = some f

/-- Neighbouring outlines that stand for the given fragments, one by one. -/
abbrev Outline.ReadsAll : List Outline → List Fragment → Prop := List.Forall₂ Outline.Reads

open Outline (ReadsAll)

section

variable {os children : List Outline} {fs : List Fragment}

theorem fragments?_of_reads (h : ReadsAll os fs) : fragments? os = some fs := by
  induction h with
  | nil => rfl
  | cons ho _ ih => simp [fragments?, ho.fragment, ih]

theorem tidyAll_of_reads (h : ReadsAll os fs) : Outline.TidyAll os := by
  induction h with
  | nil => trivial
  | cons ho _ ih => exact ⟨ho.tidy, ih⟩

/-- **A node can be read if its children can.** -/
theorem Outline.Reads.node (l : Line) (hl : l.isLegible = true) (hchildren : ReadsAll children fs)
    {f : Fragment} (hf : Fragment.ofNode? l fs = some f) : (Outline.node l.text children).Reads f := by
  refine ⟨⟨Line.isLine_text hl, tidyAll_of_reads hchildren⟩, ?_⟩
  simp [Outline.fragment?, Line.read?_text hl, fragments?_of_reads hchildren, hf]

end

/-! ## Lists of fragments -/

namespace Fragment

theorem mapM_map_eq_some {α : Type} {make : α → Fragment} {read : Fragment → Option α} {as : List α}
    (h : ∀ a ∈ as, read (make a) = some a) : (as.map make).mapM read = some as := by
  induction as with
  | nil => rfl
  | cons a as ih =>
    rw [List.forall_mem_cons] at h
    rw [List.map_cons, List.mapM_cons, h.1, ih h.2]
    rfl

theorem stmt?_ofStmt (s : Stmt) : stmt? (ofStmt s.unlocated) = some s.unlocated := by
  cases s <;> rfl

theorem part?_ofPart (p : Part) : part? (ofPart p) = some p := by
  cases p <;> rfl

theorem mapM_exprs (es : List Expr) : (es.map expr).mapM expr? = some es :=
  mapM_map_eq_some fun _ _ => rfl

theorem mapM_stmts (ss : List Stmt) : ((unlocatedStmts ss).map ofStmt).mapM stmt? = some (unlocatedStmts ss) := by
  refine mapM_map_eq_some fun s hs => ?_
  induction ss with
  | nil => exact absurd hs List.not_mem_nil
  | cons s' ss ih =>
    obtain rfl | hs := List.mem_cons.1 hs
    · exact stmt?_ofStmt s'
    · exact ih hs

theorem signature?_append (params : List Param) (body : Expr) :
    signature? (params.map param ++ [expr body]) = some (params, body) := by
  induction params with
  | nil => rfl
  | cons p params ih =>
    rw [List.map_cons, List.cons_append, signature?, ih]
    rfl

end Fragment

/-! ## What outlines stand for -/

theorem readsAll_singleton {o : Outline} {f : Fragment} (h : o.Reads f) : ReadsAll [o] [f] :=
  .cons h .nil

theorem readsAll_pair {o o' : Outline} {f f' : Fragment} (h : o.Reads f) (h' : o'.Reads f') :
    ReadsAll [o, o'] [f, f'] :=
  .cons h (.cons h' .nil)

/-- Arguments stand under a heading, if there are any. -/
theorem readsAll_headed {args : List Expr}
    (h : ReadsAll (exprOutlines args) ((unlocatedExprs args).map Fragment.expr)) :
    ReadsAll (headed "arguments" (exprOutlines args)) (Fragment.ofArgs (unlocatedExprs args)) := by
  cases args with
  | nil => exact .nil
  | cons e es =>
    refine readsAll_singleton (.node .arguments rfl h ?_)
    exact Option.map_eq_some_iff.2 ⟨_, Fragment.mapM_exprs _, rfl⟩

mutual

/-- **The outline of an expression stands for the expression**, without its positions. -/
theorem reads_expr : ∀ e : Expr, e.isLegible = true → e.outline.Reads (.expr e.unlocated)
  -- by recursion on the tree: a node is read from its line and from what its children stand for
  | .assignment _ target value, h => by
    rw [Expr.isLegible, Bool.and_eq_true] at h
    exact .node .assignment rfl (readsAll_pair (reads_expr target h.1) (reads_expr value h.2)) rfl
  | .binary _ op lhs rhs, h => by
    rw [Expr.isLegible, Bool.and_eq_true] at h
    exact .node (.binary op) rfl (readsAll_pair (reads_expr lhs h.1) (reads_expr rhs h.2)) rfl
  | .logical _ op lhs rhs, h => by
    rw [Expr.isLegible, Bool.and_eq_true] at h
    exact .node (.logical op) rfl (readsAll_pair (reads_expr lhs h.1) (reads_expr rhs h.2)) rfl
  | .unary _ op operand, h => .node (.unary op) rfl (readsAll_singleton (reads_expr operand h)) rfl
  | .conditional _ test consequent alternate, h => by
    rw [Expr.isLegible, Bool.and_eq_true, Bool.and_eq_true] at h
    exact .node .conditional rfl (.cons (reads_expr test h.1.1)
      (readsAll_pair (reads_expr consequent h.1.2) (reads_expr alternate h.2))) rfl
  | .call _ callee args, h => by
    rw [Expr.isLegible, Bool.and_eq_true] at h
    refine .node .call rfl (.cons (reads_expr callee h.1) (readsAll_headed (reads_exprs args h.2))) ?_
    cases args <;> rfl
  | .field _ object name, h => by
    rw [Expr.isLegible, Bool.and_eq_true] at h
    exact .node (.field name) h.2 (readsAll_singleton (reads_expr object h.1)) rfl
  | .index _ object key, h => by
    rw [Expr.isLegible, Bool.and_eq_true] at h
    exact .node .index rfl (readsAll_pair (reads_expr object h.1) (reads_expr key h.2)) rfl
  | .lambda _ params body, h => by
    rw [Expr.isLegible, Bool.and_eq_true] at h
    refine .node .lambda rfl (List.rel_append (reads_params params h.1) (readsAll_singleton (reads_expr body h.2))) ?_
    exact Option.map_eq_some_iff.2 ⟨_, Fragment.signature?_append _ _, rfl⟩
  | .block _ body, h => by
    refine .node .block rfl (reads_stmts body h) ?_
    exact Option.map_eq_some_iff.2 ⟨_, Fragment.mapM_stmts body, rfl⟩
  | .matching _ scrutinee arms, h => by
    rw [Expr.isLegible, Bool.and_eq_true] at h
    refine .node .matching rfl (.cons (reads_expr scrutinee h.1) (reads_arms arms h.2)) ?_
    exact Option.map_eq_some_iff.2 ⟨_, Fragment.mapM_map_eq_some fun _ _ => rfl, rfl⟩
  | .template _ parts, h => by
    refine .node .template rfl (reads_parts parts h) ?_
    exact Option.map_eq_some_iff.2 ⟨_, Fragment.mapM_map_eq_some fun p _ => Fragment.part?_ofPart p, rfl⟩
  | .object _ properties, h => by
    refine .node .object rfl (reads_properties properties h) ?_
    exact Option.map_eq_some_iff.2 ⟨_, Fragment.mapM_map_eq_some fun _ _ => rfl, rfl⟩
  | .mapped _ key union none optional value, h => by
    simp only [Expr.isLegible, Bool.and_eq_true] at h
    exact .node (.mapped key optional) h.1.1.1 (readsAll_pair (reads_expr union h.1.1.2) (reads_expr value h.2)) rfl
  | .mapped _ key union (some renamed) optional value, h => by
    simp only [Expr.isLegible, Bool.and_eq_true] at h
    have hrenamed : (Outline.node "as" [renamed.outline]).Reads (.renamed renamed.unlocated) :=
      .node .renamed rfl (readsAll_singleton (reads_expr renamed h.1.2)) rfl
    exact .node (.mapped key optional) h.1.1.1 (.cons (reads_expr union h.1.1.2)
      (readsAll_pair hrenamed (reads_expr value h.2))) rfl
  | .tuple _ elements, h => by
    refine .node .tuple rfl (reads_exprs elements h) ?_
    exact Option.map_eq_some_iff.2 ⟨_, Fragment.mapM_exprs _, rfl⟩
  | .infer _ name none, h => by
    rw [Expr.isLegible, Bool.and_eq_true] at h
    exact .node (.infer name) h.1 .nil rfl
  | .infer _ name (some bound), h => by
    rw [Expr.isLegible, Bool.and_eq_true] at h
    exact .node (.infer name) h.1 (readsAll_singleton (reads_expr bound h.2)) rfl
  | .ident _ name, h => .node (.ident name) h .nil rfl
  | .number _ digits, h => .node (.number digits) h .nil rfl
  | .string _ text, _ => .node (.string text) rfl .nil rfl
  | .numberType _, _ => .node .numberType rfl .nil rfl
  | .stringType _, _ => .node .stringType rfl .nil rfl

theorem reads_exprs : ∀ es : List Expr, legibleExprs es = true →
    ReadsAll (exprOutlines es) ((unlocatedExprs es).map Fragment.expr)
  | [], _ => .nil
  | e :: es, h => by
    rw [legibleExprs, Bool.and_eq_true] at h
    exact .cons (reads_expr e h.1) (reads_exprs es h.2)

theorem reads_params : ∀ ps : List Param, legibleParams ps = true →
    ReadsAll (paramOutlines ps) ((unlocatedParams ps).map Fragment.param)
  | [], _ => .nil
  | .mk _ name none :: ps, h => by
    simp only [legibleParams, Bool.and_eq_true] at h
    exact .cons (.node (.param name) h.1.1 .nil rfl) (reads_params ps h.2)
  | .mk _ name (some bound) :: ps, h => by
    simp only [legibleParams, Bool.and_eq_true] at h
    exact .cons (.node (.param name) h.1.1 (readsAll_singleton (reads_expr bound h.1.2)) rfl) (reads_params ps h.2)

theorem reads_stmts : ∀ ss : List Stmt, legibleStmts ss = true →
    ReadsAll (stmtOutlines ss) ((unlocatedStmts ss).map Fragment.ofStmt)
  | [], _ => .nil
  | .letDecl _ name value :: ss, h => by
    simp only [legibleStmts, Bool.and_eq_true] at h
    exact .cons (.node (.letDecl name) h.1.1 (readsAll_singleton (reads_expr value h.1.2)) rfl) (reads_stmts ss h.2)
  | .assertEqual _ left right :: ss, h => by
    simp only [legibleStmts, Bool.and_eq_true] at h
    exact .cons (.node .assertEqual rfl (readsAll_pair (reads_expr left h.1.1) (reads_expr right h.1.2)) rfl)
      (reads_stmts ss h.2)
  | .expr _ value :: ss, h => by
    rw [legibleStmts, Bool.and_eq_true] at h
    exact .cons (reads_expr value h.1) (reads_stmts ss h.2)

theorem reads_arms : ∀ as : List Arm, legibleArms as = true →
    ReadsAll (armOutlines as) ((unlocatedArms as).map Fragment.arm)
  | [], _ => .nil
  | .mk _ pattern result :: as, h => by
    simp only [legibleArms, Bool.and_eq_true] at h
    exact .cons (.node .arm rfl (readsAll_pair (reads_expr pattern h.1.1) (reads_expr result h.1.2)) rfl)
      (reads_arms as h.2)

theorem reads_parts : ∀ ps : List Part, legibleParts ps = true →
    ReadsAll (partOutlines ps) ((unlocatedParts ps).map Fragment.ofPart)
  | [], _ => .nil
  | .text text :: ps, h => .cons (.node (.chunk text) rfl .nil rfl) (reads_parts ps h)
  | .expr value :: ps, h => by
    rw [legibleParts, Bool.and_eq_true] at h
    exact .cons (reads_expr value h.1) (reads_parts ps h.2)

theorem reads_properties : ∀ ps : List Property, legibleProperties ps = true →
    ReadsAll (propertyOutlines ps) ((unlocatedProperties ps).map Fragment.property)
  | [], _ => .nil
  | .named _ name optional value :: ps, h => by
    simp only [legibleProperties, Bool.and_eq_true] at h
    exact .cons (.node (.named name optional) h.1.1 (readsAll_singleton (reads_expr value h.1.2)) rfl)
      (reads_properties ps h.2)
  | .computed _ key optional value :: ps, h => by
    simp only [legibleProperties, Bool.and_eq_true] at h
    exact .cons (.node (.computed optional) rfl (readsAll_pair (reads_expr key h.1.1) (reads_expr value h.1.2)) rfl)
      (reads_properties ps h.2)

end

/-- **The outline of a top-level item stands for the item**, without its positions. -/
theorem reads_topLevel {item : TopLevel} (h : item.isLegible = true) :
    item.outline.Reads (.item item.unlocated) := by
  cases item with
  | definition d =>
    simp only [TopLevel.isLegible, Bool.and_eq_true] at h
    refine .node (.definition d.name d.isExported) h.1.1
      (List.rel_append (reads_params d.params h.1.2) (readsAll_singleton (reads_expr d.body h.2))) ?_
    exact Option.map_eq_some_iff.2 ⟨_, Fragment.signature?_append _ _, rfl⟩
  | sectionOf s =>
    rw [TopLevel.isLegible, Bool.and_eq_true] at h
    refine .node (.sectionOf s.name) h.1 (reads_stmts s.body h.2) ?_
    exact Option.map_eq_some_iff.2 ⟨_, Fragment.mapM_stmts s.body, rfl⟩
  | importOf i => exact .node (.importOf i.symbols i.source) h .nil rfl

theorem reads_topLevels {items : List TopLevel} (h : ∀ item ∈ items, item.isLegible = true) :
    ReadsAll (items.map TopLevel.outline) ((items.map TopLevel.unlocated).map Fragment.item) := by
  induction items with
  | nil => exact .nil
  | cons item items ih =>
    rw [List.forall_mem_cons] at h
    exact .cons (reads_topLevel h.1) (ih h.2)

/-! ## Positions -/

mutual

/-- Positions are not shown. -/
theorem outline_unlocated : ∀ e : Expr, e.unlocated.outline = e.outline
  | .assignment _ lhs rhs | .binary _ _ lhs rhs | .logical _ _ lhs rhs | .index _ lhs rhs => by
    simp only [Expr.unlocated, Expr.outline, outline_unlocated lhs, outline_unlocated rhs]
  | .unary _ _ operand | .field _ operand _ => by
    simp only [Expr.unlocated, Expr.outline, outline_unlocated operand]
  | .conditional _ test consequent alternate => by
    simp only [Expr.unlocated, Expr.outline, outline_unlocated test, outline_unlocated consequent,
      outline_unlocated alternate]
  | .call _ callee args => by
    simp only [Expr.unlocated, Expr.outline, outline_unlocated callee, exprOutlines_unlocated args]
  | .lambda _ params body => by
    simp only [Expr.unlocated, Expr.outline, paramOutlines_unlocated params, outline_unlocated body]
  | .block _ body => by simp only [Expr.unlocated, Expr.outline, stmtOutlines_unlocated body]
  | .matching _ scrutinee arms => by
    simp only [Expr.unlocated, Expr.outline, outline_unlocated scrutinee, armOutlines_unlocated arms]
  | .template _ parts => by simp only [Expr.unlocated, Expr.outline, partOutlines_unlocated parts]
  | .object _ properties => by
    simp only [Expr.unlocated, Expr.outline, propertyOutlines_unlocated properties]
  | .mapped _ _ union none _ value => by
    simp only [Expr.unlocated, unlocatedOption, Expr.outline, outline_unlocated union, outline_unlocated value]
  | .mapped _ _ union (some renamed) _ value => by
    simp only [Expr.unlocated, unlocatedOption, Expr.outline, outline_unlocated union,
      outline_unlocated renamed, outline_unlocated value]
  | .tuple _ elements => by simp only [Expr.unlocated, Expr.outline, exprOutlines_unlocated elements]
  | .infer _ _ none | .ident .. | .number .. | .string .. | .numberType _ | .stringType _ => rfl
  | .infer _ _ (some bound) => by
    simp only [Expr.unlocated, unlocatedOption, Expr.outline, outline_unlocated bound]

theorem exprOutlines_unlocated : ∀ es : List Expr, exprOutlines (unlocatedExprs es) = exprOutlines es
  | [] => rfl
  | e :: es => by simp only [unlocatedExprs, exprOutlines, outline_unlocated e, exprOutlines_unlocated es]

theorem paramOutlines_unlocated : ∀ ps : List Param, paramOutlines (unlocatedParams ps) = paramOutlines ps
  | [] => rfl
  | .mk _ _ none :: ps => by
    simp only [unlocatedParams, Param.unlocated, unlocatedOption, paramOutlines, paramOutlines_unlocated ps]
  | .mk _ _ (some bound) :: ps => by
    simp only [unlocatedParams, Param.unlocated, unlocatedOption, paramOutlines, outline_unlocated bound,
      paramOutlines_unlocated ps]

theorem stmtOutlines_unlocated : ∀ ss : List Stmt, stmtOutlines (unlocatedStmts ss) = stmtOutlines ss
  | [] => rfl
  | .letDecl _ _ value :: ss | .expr _ value :: ss => by
    simp only [unlocatedStmts, Stmt.unlocated, stmtOutlines, outline_unlocated value, stmtOutlines_unlocated ss]
  | .assertEqual _ left right :: ss => by
    simp only [unlocatedStmts, Stmt.unlocated, stmtOutlines, outline_unlocated left, outline_unlocated right,
      stmtOutlines_unlocated ss]

theorem armOutlines_unlocated : ∀ as : List Arm, armOutlines (unlocatedArms as) = armOutlines as
  | [] => rfl
  | .mk _ pattern result :: as => by
    simp only [unlocatedArms, Arm.unlocated, armOutlines, outline_unlocated pattern, outline_unlocated result,
      armOutlines_unlocated as]

theorem partOutlines_unlocated : ∀ ps : List Part, partOutlines (unlocatedParts ps) = partOutlines ps
  | [] => rfl
  | .text _ :: ps => by simp only [unlocatedParts, partOutlines, partOutlines_unlocated ps]
  | .expr value :: ps => by
    simp only [unlocatedParts, partOutlines, outline_unlocated value, partOutlines_unlocated ps]

theorem propertyOutlines_unlocated :
    ∀ ps : List Property, propertyOutlines (unlocatedProperties ps) = propertyOutlines ps
  | [] => rfl
  | .named _ _ _ value :: ps => by
    simp only [unlocatedProperties, Property.unlocated, propertyOutlines, outline_unlocated value,
      propertyOutlines_unlocated ps]
  | .computed _ key _ value :: ps => by
    simp only [unlocatedProperties, Property.unlocated, propertyOutlines, outline_unlocated key,
      outline_unlocated value, propertyOutlines_unlocated ps]

end

theorem TopLevel.outline_unlocated (item : TopLevel) : item.unlocated.outline = item.outline := by
  cases item with
  | definition d =>
    simp only [TopLevel.unlocated, TopLevel.outline, paramOutlines_unlocated, TypeForge.outline_unlocated]
  | sectionOf s => simp only [TopLevel.unlocated, TopLevel.outline, stmtOutlines_unlocated]
  | importOf i => rfl

theorem Program.outline_unlocated (program : Program) : program.unlocated.outline = program.outline := by
  simp only [Program.outline, Program.unlocated, List.map_map, Function.comp_def, TopLevel.outline_unlocated]

/-! ## Equal outlines -/

/-- The text of outlines that can be read determines what they stand for. -/
theorem eq_of_renderAllAt_eq {os os' : List Outline} {fs fs' : List Fragment} (h : ReadsAll os fs)
    (h' : ReadsAll os' fs') {depth : Nat} (htext : Outline.renderAllAt depth os = Outline.renderAllAt depth os') :
    fs = fs' := by
  have hsame : os = os' := Outline.renderAllAt_inj (tidyAll_of_reads h) (tidyAll_of_reads h') htext
  subst hsame
  exact Option.some_inj.1 ((fragments?_of_reads h).symm.trans (fragments?_of_reads h'))

theorem Expr.unlocated_eq_of_render_eq {e f : Expr} (he : e.isLegible = true) (hf : f.isLegible = true)
    (h : e.outline.render = f.outline.render) : e.unlocated = f.unlocated := by
  have htext : Outline.renderAllAt 0 [e.outline] = Outline.renderAllAt 0 [f.outline] := by
    simp only [Outline.renderAllAt, String.append_empty]
    exact h
  have hfragments := eq_of_renderAllAt_eq (readsAll_singleton (reads_expr e he))
    (readsAll_singleton (reads_expr f hf)) htext
  simpa using hfragments

theorem Program.unlocated_eq_of_outline_eq {p q : Program} (hp : p.isLegible = true) (hq : q.isLegible = true)
    (h : p.outline = q.outline) : p.unlocated = q.unlocated := by
  have hfragments := eq_of_renderAllAt_eq (reads_topLevels (List.all_eq_true.1 hp))
    (reads_topLevels (List.all_eq_true.1 hq)) h
  have hitem : Function.Injective Fragment.item := fun _ _ heq => Fragment.item.inj heq
  exact congrArg Program.mk (List.map_injective_iff.2 hitem hfragments)

/-- **Programs have the same outline if and only if they differ in positions only**, and so do
expressions. -/
theorem outline_eq_iff_unlocated_eq :
    (∀ p q : Program, p.isLegible = true → q.isLegible = true →
      (p.outline = q.outline ↔ p.unlocated = q.unlocated)) ∧
    (∀ e f : Expr, e.isLegible = true → f.isLegible = true →
      (e.outline.render = f.outline.render ↔ e.unlocated = f.unlocated)) := by
  refine ⟨fun p q hp hq => ⟨Program.unlocated_eq_of_outline_eq hp hq, fun h => ?_⟩,
    fun e f he hf => ⟨Expr.unlocated_eq_of_render_eq he hf, fun h => ?_⟩⟩
  · rw [← p.outline_unlocated, h, q.outline_unlocated]
  · rw [← outline_unlocated e, h, outline_unlocated f]

/-- A lambda that is called in a mapped type, all at one position, perhaps with a bound and with
arguments. -/
def calledSyntax (pos : Position) (bound : Option Expr) (args : List Expr) : Expr :=
  .mapped pos "k" (.call pos (.lambda pos [.mk pos "x" bound] (.ident pos "7x")) args) (some (.string pos "a\n\"b"))
    true (.template pos [.text "\n  ident a", .expr (.number pos "07")])

/-- A program that has an expression in a definition and in a section, and an import. -/
def aroundSyntax (pos : Position) (e : Expr) : Program :=
  ⟨[.importOf ⟨pos, ["p", "q_"], "\x7d from \""⟩, .definition ⟨pos, true, "f", [.mk pos "y" (some e)], e⟩,
    .sectionOf ⟨pos, "s", [.letDecl pos "z" e, .assertEqual pos e e, .expr pos e]⟩]⟩

/-- A program with a bound in it, all at one position. -/
def boundSyntax (pos : Position) : Program :=
  aroundSyntax pos (calledSyntax pos (some (.numberType pos)) [])

/-- The same program with an argument instead. -/
def argumentSyntax (pos : Position) : Program :=
  aroundSyntax pos (calledSyntax pos none [.numberType pos])

theorem outline_boundSyntax :
    (boundSyntax ⟨3, 7⟩).isLegible = true ∧ (boundSyntax .start).isLegible = true ∧
      (argumentSyntax .start).isLegible = true ∧
      (boundSyntax ⟨3, 7⟩).outline = (boundSyntax .start).outline ∧
      (boundSyntax ⟨3, 7⟩).outline ≠ (argumentSyntax .start).outline ∧
      (calledSyntax ⟨3, 7⟩ none []).isLegible = true ∧ (calledSyntax .start none []).isLegible = true ∧
      (calledSyntax ⟨3, 7⟩ none []).outline.render = (calledSyntax .start none []).outline.render := by
  refine ⟨by decide, by decide, by decide, ?_, fun h => ?_, by decide, by decide, ?_⟩
  · exact (outline_eq_iff_unlocated_eq.1 _ _ (by decide) (by decide)).2 rfl
  · have hsame := (outline_eq_iff_unlocated_eq.1 _ _ (by decide) (by decide)).1 h
    simp [boundSyntax, argumentSyntax, aroundSyntax, calledSyntax, Program.unlocated, TopLevel.unlocated] at hsame
  · exact (outline_eq_iff_unlocated_eq.2 _ _ (by decide) (by decide)).2 rfl

end TypeForge
