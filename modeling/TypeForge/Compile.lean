import TypeForge.Parser.Program
import TypeForge.Generate.Program
import TypeForge.TypeScript.Render

/-!
# Compilation

From the text of a program to the text of target code.
-/

namespace TypeForge

/-- Why a source text cannot be compiled. -/
inductive CompileError where
  | parsing (error : Located SyntaxError)
  | generation (error : Located GenError)

namespace CompileError

/-- The text of an error. -/
def message : CompileError → String
  | parsing e => "syntax error at " ++ e.render SyntaxError.message
  | generation e => "compile error at " ++ e.render GenError.message

/-- Where an error was found. -/
def pos : CompileError → Position
  | parsing e => e.pos
  | generation e => e.pos

end CompileError

/-- Compiles a source text for a target. -/
def compile (target : Target) (source : String) : Except CompileError String := do
  let program ← (parseProgram source).mapError .parsing
  let code ← program.generate.mapError .generation
  return code.render target

end TypeForge
