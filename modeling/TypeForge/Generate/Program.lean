import TypeForge.Generate.Expr

/-!
# Generating code for programs

Every top-level item becomes one declaration.  The number of parameters of each
top-level function is known beforehand, so that calls need not find it out.
-/

namespace TypeForge

open TypeScript

/-- The number of parameters of a definition that is known to be a function: by its own
parameters, else by those of the lambda it is defined as. -/
def Definition.arity? (d : Definition) : Option Nat :=
  if !d.params.isEmpty then some d.params.length
  else
    match d.body with
    | .lambda _ params _ => some params.length
    | _ => none

/-- The number of parameters of the function that an item defines under the given name. -/
def TopLevel.arityOf? (name : String) : TopLevel → Option Nat
  | .definition d => if d.name = name then d.arity? else none
  | _ => none

/-- The number of parameters of a top-level function; the last definition counts. -/
def Program.arity (program : Program) (name : String) : Option Nat :=
  program.body.reverse.findSome? (TopLevel.arityOf? name)

namespace Gen

/-- The code of what a definition stands for. -/
def definitionTy (ctx : Context) (d : Definition) : Gen Ty :=
  if d.params.isEmpty then exprTy ctx d.body
  else
    liftLambda ctx d.params (fun inner => boundTys inner d.params)
      (fun inner => exprTy inner d.body)

/-- The code of a definition. -/
def definition (ctx : Context) (d : Definition) : Gen Declaration := do
  let value ← definitionTy ctx d
  return .named d.isExported ⟨.user d.name, value⟩

/-- The code of a statement of a section. -/
def sectionStmt (ctx : Context) : Stmt → Gen Alias
  | .letDecl _ name value => do
    let value ← exprTy ctx value
    return ⟨.user name, value⟩
  | .assertEqual _ left right => do
    require .booleans
    require .call
    require .expect
    let left ← exprTy ctx left
    let right ← exprTy ctx right
    let id ← freshId
    let equal := Ty.apply (.symbol .booleans (some "Equals")) [left, right]
    return ⟨.temp id, .applied .expect [.applied .call [equal]]⟩
  | .expr _ value => do
    let value ← exprTy ctx value
    let id ← freshId
    return ⟨.temp id, value⟩

/-- The code of the statements of a section. -/
def sectionStmts (ctx : Context) : List Stmt → Gen (List Alias)
  | [] => return []
  | s :: ss => do
    let a ← sectionStmt ctx s
    let as ← sectionStmts ctx ss
    return a :: as

/-- The code of a top-level item. -/
def topLevel (ctx : Context) : TopLevel → Gen Declaration
  | .definition d => definition ctx d
  | .sectionOf s => return .group s.name (← sectionStmts ctx s.body)
  | .importOf i => return .importOf i.symbols i.source

/-- The code of top-level items. -/
def topLevels (ctx : Context) : List TopLevel → Gen (List Declaration)
  | [] => return []
  | i :: is => do
    let d ← topLevel ctx i
    let ds ← topLevels ctx is
    return d :: ds

end Gen

/-- The place of a top-level expression of a program. -/
def Program.context (program : Program) : Context := ⟨Scope.empty, none, program.arity⟩

/-- The code of a program. -/
def Program.generate (program : Program) : Except (Located GenError) Module :=
  match (Gen.topLevels program.context program.body).run.run GenState.initial with
  | (.ok items, s) => .ok ⟨s.imports, s.lifted, items⟩
  | (.error e, _) => .error e

end TypeForge
