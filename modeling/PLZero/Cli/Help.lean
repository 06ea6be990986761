/-!
# Help

The text that `-h` and `--help` print: what the tool does, the usage line, the argument and the
options.  The short form has a line for each option, with its meaning in a column; the long form
tells more about the tool, and has the meaning of an option on a line of its own.
-/

namespace PLZero.Cli

def toolName : String := "pl0c"

def toolVersion : String := "0.2.0"

def usage : String := s!"Usage: {toolName} [OPTIONS] <PATH>"

def about : String := "PL/0 compiler that generates stack machine bytecode"

def longAbout : String := "\n".intercalate [
  s!"{about}.",
  "The source goes through lexical analysis, parsing, scope resolution,",
  "type inference and code generation, and the resulting unit is written",
  "as a .pl0b file that the bundled virtual machine can execute.",
  "",
  "Example usage:",
  s!"{toolName} input.pl0                    # Compile to input.pl0b",
  s!"{toolName} input.pl0 -o output.pl0b     # Specify output file",
  s!"{toolName} input.pl0 --print-code       # Print the instruction listing",
  s!"{toolName} input.pl0 --run              # Compile and execute",
  s!"{toolName} input.pl0b                   # Execute a compiled unit",
  s!"{toolName} input.pl0 --timing           # Show compilation timing",
  s!"{toolName} input.pl0 --show-ast         # Display abstract syntax tree"]

/-- How an argument is written, and what it means. -/
structure HelpEntry where
  form : String
  meaning : String
  deriving DecidableEq, Repr

def argumentEntries : List HelpEntry := [⟨"<PATH>", ""⟩]

/-- The options; `helpMeaning` is what is said about the option for help itself. -/
def optionEntries (helpMeaning : String) : List HelpEntry := [
  ⟨"-o, --output <OUTPUT>", ""⟩,
  ⟨"    --name <NAME>", ""⟩,
  ⟨"-c, --print-code", ""⟩,
  ⟨"    --show-ast", ""⟩,
  ⟨"-v, --verbose", ""⟩,
  ⟨"    --trace", ""⟩,
  ⟨"-t, --timing", ""⟩,
  ⟨"-r, --run", ""⟩,
  ⟨"-h, --help", helpMeaning⟩,
  ⟨"-V, --version", "Print version"⟩]

namespace HelpEntry

/-- The entry on one line, with its meaning two columns after the given width. -/
def line (width : Nat) (e : HelpEntry) : String :=
  "  " ++ e.form ++ String.ofList (List.replicate (width + 2 - e.form.length) ' ') ++ e.meaning

/-- The entry on two lines. -/
def lines (e : HelpEntry) : String := "  " ++ e.form ++ "\n          " ++ e.meaning

end HelpEntry

/-- Entries one below the other, their meanings in one column. -/
def shortEntries (entries : List HelpEntry) : String :=
  let width := (entries.map fun e => e.form.length).foldl max 0
  "\n".intercalate (entries.map (HelpEntry.line width))

/-- Entries with an empty line between them. -/
def longEntries (entries : List HelpEntry) : String :=
  "\n\n".intercalate (entries.map HelpEntry.lines)

def helpText (about arguments options : String) : String :=
  s!"{about}\n\n{usage}\n\nArguments:\n{arguments}\n\nOptions:\n{options}\n"

def shortHelp : String :=
  helpText about (shortEntries argumentEntries)
    (shortEntries (optionEntries "Print help (see more with '--help')"))

def longHelp : String :=
  helpText longAbout (longEntries argumentEntries)
    (longEntries (optionEntries "Print help (see a summary with '-h')"))

end PLZero.Cli
