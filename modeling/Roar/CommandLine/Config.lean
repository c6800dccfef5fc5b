import Roar.Compile

/-!
# The command line

The arguments of `lionc` are options and one source file, in any order. `-o` and `--target` take the
next argument whatever it looks like; an option that is given again replaces what it set before.

* `Argument.ofText` says what an argument is by itself.
* `Config.ofArgs` reads a whole command line, or says what is wrong with it.
-/

namespace Roar.CommandLine

/-- What one command line asks for. An empty output path is the standard output. -/
structure Config where
  source : Bytes := []
  output : Bytes := []
  compile : CompileOptions := {}
  help : Bool := false
  version : Bool := false
deriving DecidableEq, Repr

/-- What is wrong with a command line. -/
inductive UsageError where
  | missingOutput
  | missingTarget
  | unknownFlag (flag : Bytes)
  | severalSources (first second : Bytes)
  | noSource
deriving DecidableEq, Repr

def UsageError.message : UsageError → Bytes
  | missingOutput => ascii "missing file name after -o"
  | missingTarget => ascii "missing target name after --target"
  | unknownFlag flag => ascii "unknown flag: " ++ flag
  | severalSources first second =>
    ascii "multiple source files: " ++ first ++ ascii " and " ++ second
  | noSource => ascii "no source file specified"

def UsageError.diagnostic (e : UsageError) : Diagnostic := .error {} e.message []

/-- What an argument is by itself. The options `output` and `target` take the next argument. -/
inductive Argument where
  | help
  | version
  | output
  | target
  | targetIs (name : Bytes)
  | optimize (on : Bool)
  | dump
  | unknown
  | positional
deriving DecidableEq, Repr

/-- How an option begins that brings its target along. -/
def targetPrefix : Bytes := ascii "--target="

def Argument.ofText (arg : Bytes) : Argument :=
  if arg = ascii "-h" ∨ arg = ascii "--help" then .help
  else if arg = ascii "--version" then .version
  else if arg = ascii "-o" then .output
  else if arg = ascii "--target" then .target
  else if targetPrefix.isPrefixOf arg then .targetIs (arg.drop targetPrefix.length)
  else if arg = ascii "-O0" then .optimize false
  else if arg = ascii "-O1" then .optimize true
  else if arg = ascii "--dump-ast" then .dump
  else if arg.head? = some (byte '-') then .unknown
  else .positional

namespace Config

def setTarget (c : Config) (name : Bytes) : Config :=
  { c with compile := { c.compile with target := name } }

def setOptimize (c : Config) (on : Bool) : Config :=
  { c with compile := { c.compile with optimize := on } }

def setDump (c : Config) : Config := { c with compile := { c.compile with dump := true } }

/-- Read arguments one after the other. -/
def readArgs (c : Config) : List Bytes → Except UsageError Config
  | [] => .ok c
  | arg :: args =>
    match Argument.ofText arg with
    | .help => readArgs { c with help := true } args
    | .version => readArgs { c with version := true } args
    | .output =>
      match args with
      | [] => .error .missingOutput
      | path :: args => readArgs { c with output := path } args
    | .target =>
      match args with
      | [] => .error .missingTarget
      | name :: args => readArgs (c.setTarget name) args
    | .targetIs name => readArgs (c.setTarget name) args
    | .optimize on => readArgs (c.setOptimize on) args
    | .dump => readArgs c.setDump args
    | .unknown => .error (.unknownFlag arg)
    | .positional =>
      if c.source = [] then readArgs { c with source := arg } args
      else .error (.severalSources c.source arg)

/-- What a command line asks for. A source is needed unless help or the version is wanted. -/
def ofArgs (args : List Bytes) : Except UsageError Config :=
  match readArgs {} args with
  | .error e => .error e
  | .ok c => if c.help || c.version || c.source ≠ [] then .ok c else .error .noSource

end Config

/-- The summary of the options. -/
def usage : Bytes :=
  ascii "Usage: lionc <file.lion> [-o <out.js>] [--target js] [-O0] [--dump-ast]\n" ++
  ascii "\n" ++
  ascii "Options:\n" ++
  ascii "  -o FILE        Write the generated code to FILE instead of stdout\n" ++
  ascii "  --target NAME  Output target (only 'js' is supported)\n" ++
  ascii "  -O0            Disable the AST optimizer\n" ++
  ascii "  --dump-ast     Print the AST to stderr after analysis and optimization\n" ++
  ascii "  -h, --help     Show this message\n" ++
  ascii "  --version      Show the version\n"

/-- The line that names the version. -/
def versionLine : Bytes := ascii "lionc v0.1.0\n"

end Roar.CommandLine
