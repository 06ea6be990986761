import PLZero.Cli.Help
import PLZero.Cli.Options
import PLZero.Cli.Path
import PLZero.Code.Decode
import PLZero.Compile
import PLZero.Machine.Run

/-!
# Sessions

`run` carries out a command line.  It reaches the outside only through a `Shell`: the files, the
two streams, the input of the program that is run, and a clock.

A file that ends in `.pl0b` is a unit and is run.  Any other is a source and must end in `.pl0`; it is
compiled, the unit is written beside it or where `-o` says, and run if `-r` is given.
-/

namespace PLZero.Cli

/-- Why a file cannot be read or written. -/
inductive FileFault where
  | notFound
  | notDirectory
  | isDirectory
  | nameTooLong
  | other (reason : String)
  deriving DecidableEq, Repr

namespace FileFault

def reason : FileFault → String
  | notFound => "No such file or directory (os error 2)"
  | notDirectory => "Not a directory (os error 20)"
  | isDirectory => "Is a directory (os error 21)"
  | nameTooLong => "File name too long (os error 36)"
  | other reason => reason

/-- Whether the fault means that there is no such file. -/
def isAbsence : FileFault → Bool
  | notFound => true
  | notDirectory => true
  | nameTooLong => true
  | _ => false

end FileFault

/-- The timed parts of a compilation. -/
inductive Phase where
  | lexing
  | parsing
  | analysis
  | generation
  | total
  deriving DecidableEq, Repr

/-- What a session needs from outside. -/
structure Shell (m : Type → Type) where
  readFile : String → m (Except FileFault (List UInt8))
  writeFile : String → List UInt8 → m (Except FileFault Unit)
  print : String → m Unit
  printError : String → m Unit
  /-- Everything the program that is run may read. -/
  input : m (List UInt8)
  /-- Says that a phase has ended. -/
  mark : Phase → m Unit
  /-- The time that a phase took, in milliseconds, if it was measured. -/
  elapsed : Phase → m (Option Nat)

structure Metrics where
  tokens : Nat
  declarations : Nat
  passes : Nat
  routines : Nat
  instructions : Nat
  deriving DecidableEq, Repr

def unitExtension : String := "pl0b"

def sourceExtension : String := "pl0"

/-! ## Times and counts -/

def padLeft (width : Nat) (s : String) : String :=
  String.ofList (List.replicate (width - s.length) ' ') ++ s

/-- A time in seconds with three places, in nine columns. -/
def timeText : Option Nat → String
  | none => "#########"
  | some ms =>
    let places := toString (ms % 1000)
    padLeft 9 (toString (ms / 1000) ++ "." ++
      String.ofList (List.replicate (3 - places.length) '0') ++ places)

def ruler : String := "+---------------------+-----------+\n"

def timingTable (elapsed : Phase → Option Nat) (counts : Metrics) : String :=
  let row (title : String) (phase : Phase) := s!"| {title} | {timeText (elapsed phase)} |\n"
  "\n Compilation Statistics:\n" ++ ruler ++
  "| Phase               | Time (s)  |\n" ++ ruler ++
  row "Lexical Analysis   " .lexing ++
  row "Parsing            " .parsing ++
  row "Semantic Analysis  " .analysis ++
  row "Code Generation    " .generation ++ ruler ++
  row "Total Time         " .total ++ ruler ++
  "\n Code Metrics:\n" ++
  s!"  - Tokens:             {counts.tokens}\n" ++
  s!"  - Declarations:       {counts.declarations}\n" ++
  s!"  - Inference Passes:   {counts.passes}\n" ++
  s!"  - Routines:           {counts.routines}\n" ++
  s!"  - Instructions:       {counts.instructions}\n"

/-! ## Names and texts -/

def Options.has (o : Options) (s : Switch) : Bool := o.switches.contains s

def Options.outputPath (o : Options) : String :=
  o.output.getD (Path.withExtension o.path unitExtension)

def Options.unitName (o : Options) : String :=
  o.name.getD (UnitName.ofStem ((Path.stem? o.path).getD ""))

/-- The text of a source file. -/
def sourceText (o : Options) (contents : Except FileFault (List UInt8)) :
    Except Diagnostic String := do
  if let .error fault := contents then
    if fault.isAbsence then
      throw (.compilation "file not found" s!"Input file does not exist: {o.path}")
  if Path.extension? o.path ≠ some sourceExtension then
    throw (.fileRead "File must have a .pl0 extension")
  match contents with
  | .error fault => throw (.io fault.reason)
  | .ok bytes =>
    match Utf8.decode bytes with
    | .ok cs => return String.ofList cs
    | .error _ => throw (.io Utf8.streamMessage)

/-! ## Sessions -/

section

variable {m : Type → Type} [Monad m] (sh : Shell m)

/-- Reports a failure; the result is the exit code. -/
def fail (what : String) (d : Diagnostic) : m UInt32 := do
  sh.printError s!"Error: {what}: {d.message}\n"
  return 1

/-- Runs a unit for at most the given number of steps and prints what it prints. -/
def execute (steps : Nat) (u : CodeUnit) : m UInt32 := do
  match u.run steps (← sh.input) with
  | none => fail sh "Execution failed" (.other "out of steps")
  | some report =>
    sh.print report.console.output
    match report.fault with
    | some fault => fail sh "Execution failed" fault.diagnostic
    | none => return 0

/-- Compiles a source text and prints what the options ask for on the way. -/
def build (o : Options) (source : String) : m (Except Diagnostic (CodeUnit × Metrics)) := do
  match scan source with
  | .error fault => return .error fault.diagnostic
  | .ok tokens =>
    sh.mark .lexing
    match Program.ofTokens tokens with
    | .error fault => return .error fault.diagnostic
    | .ok program =>
      sh.mark .parsing
      if o.has .showTree then sh.print ("\n Abstract Syntax Tree:\n" ++ program.text)
      match program.analyze with
      | (_, .error fault) => return .error fault.diagnostic
      | (program, .ok passes) =>
        sh.mark .analysis
        match program.generate o.unitName with
        | .error fault => return .error fault.diagnostic
        | .ok unit =>
          sh.mark .generation
          if o.has .printCode then sh.print ("\n Generated Code:\n" ++ unit.listing)
          sh.mark .total
          return .ok (unit, ⟨tokens.length, program.declCount, passes, unit.routines.length,
            unit.instructionCount⟩)

/-- Compiles the source file, writes the unit, and runs it if asked to. -/
def compileFile (steps : Nat) (o : Options) : m UInt32 := do
  match sourceText o (← sh.readFile o.path) with
  | .error d => fail sh "Compilation failed" d
  | .ok source =>
    match ← build sh o source with
    | .error d => fail sh "Compilation failed" d
    | .ok (unit, counts) =>
      match ← sh.writeFile o.outputPath unit.encode with
      | .error fault =>
        fail sh "Failed to write output" (.fileWrite s!"{o.outputPath}: {fault.reason}")
      | .ok () =>
        if o.has .timing then
          let lexing ← sh.elapsed .lexing
          let parsing ← sh.elapsed .parsing
          let analysis ← sh.elapsed .analysis
          let generation ← sh.elapsed .generation
          let total ← sh.elapsed .total
          let elapsed := fun
            | .lexing => lexing
            | .parsing => parsing
            | .analysis => analysis
            | .generation => generation
            | .total => total
          sh.print (timingTable elapsed counts)
        if o.has .run then execute sh steps unit else return 0

/-- Reads the unit in a file and runs it. -/
def runFile (steps : Nat) (path : String) : m UInt32 := do
  match ← sh.readFile path with
  | .error fault => fail sh "Execution failed" (.fileRead s!"{path}: {fault.reason}")
  | .ok bytes =>
    match CodeUnit.decode bytes with
    | .error fault => fail sh "Execution failed" fault.diagnostic
    | .ok unit => execute sh steps unit

/-- Carries out a command line.  The result is the exit code: 0, or 1 after a failure, or 2 if the
command line makes no sense. -/
def run (steps : Nat) (args : List String) : m UInt32 := do
  match Command.ofArgs args with
  | .error fault =>
    sh.printError s!"error: {fault.message}\n\n{usage}\n\nFor more information, try '--help'.\n"
    return 2
  | .ok .version =>
    sh.print s!"{toolName} {toolVersion}\n"
    return 0
  | .ok (.help long) =>
    sh.print (if long then longHelp else shortHelp)
    return 0
  | .ok (.build o) =>
    if Path.extension? o.path = some unitExtension then runFile sh steps o.path
    else compileFile sh steps o

end

end PLZero.Cli
