import Roar.Analysis.Resolve
import Roar.Grammar.Parser
import Roar.Optimize.Pass
import Roar.Program.Outline
import Roar.Target.Script

/-!
# Compiling a source

`compile` parses a source, analyses it, simplifies it if asked to and writes the output. The first
stage that fails gives the one diagnostic of the result, and no later stage is run.
-/

namespace Roar

/-- What a compilation should do. -/
structure CompileOptions where
  optimize : Bool := true
  target : Bytes := ascii "js"
  /-- Give outlines of the program after analysis and after simplification. -/
  dump : Bool := false
deriving DecidableEq, Repr

/-- A source, with the number of its file, or the path under which it gets one. -/
structure Source where
  text : Bytes
  path : Bytes := ascii "<input>"
  file : Option Nat := none

/-- What became of a source. There is a program once analysis has succeeded. -/
structure Compiled where
  file : Nat
  report : Report := {}
  program : Option Program := none
  output : Bytes := []
  outlines : Bytes := []

/-- Nothing went wrong. -/
def Compiled.succeeded (c : Compiled) : Bool := c.report.errors == 0

/-- The outline of a program after a stage. -/
def stageOutline (stage : String) (p : Program) : Bytes :=
  ascii "=== AST after " ++ ascii stage ++ ascii " ===\n" ++ p.outline ++ ascii "=== End AST ===\n"

/-- The outlines of a program after analysis and, if it is simplified, after that. -/
def outlinesOf (options : CompileOptions) (analysed final : Program) : Bytes :=
  if options.dump then
    stageOutline "semantic analysis" analysed ++
      if options.optimize then stageOutline "optimization" final else []
  else []

/-- The program of a source. -/
def analyzeSource (text : Bytes) (file : Nat) : Except Diagnostic Program := do
  let tree ← Grammar.parse text file
  analyze tree

/-- Compile the text of a file. -/
def compileFile (text : Bytes) (file : Nat) (options : CompileOptions) : Compiled :=
  match analyzeSource text file with
  | .error d => { file, report := ⟨[d]⟩ }
  | .ok analysed =>
    let final := if options.optimize then analysed.optimize else analysed
    let outlines := outlinesOf options analysed final
    match generate final options.target with
    | .error e => { file, report := ⟨[e.diagnostic]⟩, program := some final, outlines }
    | .ok output => { file, program := some final, output, outlines }

/-- Compile a source. One without a file number is added to the files. -/
def compile (source : Source) (options : CompileOptions) (files : Registry) : Compiled × Registry :=
  match source.file with
  | some file => (compileFile source.text file options, files)
  | none =>
    let (file, files) := files.add source.path
    (compileFile source.text file options, files)

end Roar
