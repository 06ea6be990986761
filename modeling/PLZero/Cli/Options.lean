/-!
# Command line arguments

A command line has one path and options in any order.  A short option is a dash and a letter, and
several letters may share a dash; a long option is two dashes and a word.  An option with a value
takes what is attached to it, after an optional `=`, or else the next argument, which must not look
like an option.  After `--` everything is a path.  No option may be given twice.  The long way of
asking for help gives the long text.
-/

namespace PLZero.Cli

inductive Switch where
  | printCode
  | showTree
  | verbose
  | trace
  | timing
  | run
  deriving DecidableEq, Repr

inductive Setting where
  | output
  | name
  deriving DecidableEq, Repr

structure Options where
  path : String
  output : Option String
  name : Option String
  switches : List Switch
  deriving DecidableEq, Repr

inductive Command where
  | build (options : Options)
  | version
  | help (long : Bool)
  deriving DecidableEq, Repr

inductive UsageFault where
  | unknownOption (option : String)
  | repeated (option : String)
  | missingValue (option : String)
  | emptyValue (option : String)
  | unwantedValue (option : String)
  | extraPath (path : String)
  | noPath
  deriving DecidableEq, Repr

def UsageFault.message : UsageFault → String
  | unknownOption option => s!"unknown option '{option}'"
  | repeated option => s!"option '{option}' is given twice"
  | missingValue option => s!"option '{option}' needs a value"
  | emptyValue option => s!"'{option}' must not be empty"
  | unwantedValue option => s!"option '{option}' takes no value"
  | extraPath path => s!"unexpected argument '{path}'"
  | noPath => "no file is given"

/-- What an option asks for. -/
inductive Meaning where
  | switch (s : Switch)
  | setting (s : Setting)
  | version
  | help
  deriving DecidableEq, Repr

def short? : Char → Option Meaning
  | 'o' => some (.setting .output)
  | 'c' => some (.switch .printCode)
  | 'v' => some (.switch .verbose)
  | 't' => some (.switch .timing)
  | 'r' => some (.switch .run)
  | 'V' => some .version
  | 'h' => some .help
  | _ => none

def long? (word : String) : Option Meaning :=
  match word with
  | "output" => some (.setting .output)
  | "name" => some (.setting .name)
  | "print-code" => some (.switch .printCode)
  | "show-ast" => some (.switch .showTree)
  | "verbose" => some (.switch .verbose)
  | "trace" => some (.switch .trace)
  | "timing" => some (.switch .timing)
  | "run" => some (.switch .run)
  | "version" => some .version
  | "help" => some .help
  | _ => none

/-- The options read so far. -/
structure Draft where
  path : Option String
  output : Option String
  name : Option String
  switches : List Switch
  deriving DecidableEq, Repr

namespace Draft

def empty : Draft := ⟨none, none, none, []⟩

def addSwitch (d : Draft) (option : String) (s : Switch) : Except UsageFault Draft :=
  if s ∈ d.switches then .error (.repeated option) else .ok { d with switches := s :: d.switches }

/-- Notes the value of a setting.  A file must have a name, but a unit name may be empty. -/
def addSetting (d : Draft) (option value : String) : Setting → Except UsageFault Draft
  | .output =>
    if value = "" then .error (.emptyValue option)
    else if d.output.isSome then .error (.repeated option)
    else .ok { d with output := some value }
  | .name =>
    if d.name.isSome then .error (.repeated option) else .ok { d with name := some value }

def addPath (d : Draft) (path : String) : Except UsageFault Draft :=
  if d.path.isSome then .error (.extraPath path)
  else if path = "" then .error (.emptyValue "path")
  else .ok { d with path := some path }

def finish (d : Draft) : Except UsageFault Command :=
  match d.path with
  | some path => .ok (.build ⟨path, d.output, d.name, d.switches⟩)
  | none => .error .noPath

end Draft

/-- What reading one argument leads to. -/
inductive Progress where
  | next (draft : Draft)
  | wants (option : String) (s : Setting) (draft : Draft)
  | command (c : Command)
  deriving DecidableEq, Repr

/-- The letters of one argument, after its dash. -/
def readLetters (d : Draft) : List Char → Except UsageFault Progress
  | [] => .ok (.next d)
  | c :: cs =>
    let option := "-" ++ c.toString
    match short? c with
    | none => .error (.unknownOption option)
    | some .version => .ok (.command .version)
    | some .help => .ok (.command (.help false))
    | some (.switch s) => do readLetters (← d.addSwitch option s) cs
    | some (.setting s) =>
      match cs with
      | [] => .ok (.wants option s d)
      | '=' :: value => .next <$> d.addSetting option (String.ofList value) s
      | value => .next <$> d.addSetting option (String.ofList value) s

/-- A long option, after its dashes. -/
def readWord (d : Draft) (text : List Char) : Except UsageFault Progress :=
  let word := text.takeWhile (· ≠ '=')
  let value? := (text.drop word.length).tail?.map String.ofList
  let option := "--" ++ String.ofList word
  match long? (String.ofList word), value? with
  | none, _ => .error (.unknownOption option)
  | some (.setting s), none => .ok (.wants option s d)
  | some (.setting s), some value => .next <$> d.addSetting option value s
  | some _, some _ => .error (.unwantedValue option)
  | some (.switch s), none => .next <$> d.addSwitch option s
  | some .version, none => .ok (.command .version)
  | some .help, none => .ok (.command (.help true))

/-- Whether an argument can be the value of the option before it. -/
def isValue (arg : String) : Bool := arg = "-" || !arg.startsWith "-"

def readArg (d : Draft) (arg : String) : Except UsageFault Progress :=
  match arg.toList with
  | '-' :: '-' :: text => readWord d text
  | '-' :: c :: cs => readLetters d (c :: cs)
  | _ => .next <$> d.addPath arg

def readArgs (d : Draft) : List String → Except UsageFault Command
  | [] => d.finish
  | arg :: args =>
    if arg = "--" then do (← args.foldlM Draft.addPath d).finish
    else do
      match ← readArg d arg with
      | .next d => readArgs d args
      | .command c => return c
      | .wants option s d =>
        match args with
        | [] => throw (.missingValue option)
        | value :: args =>
          if isValue value then readArgs (← d.addSetting option value s) args
          else throw (.missingValue option)

def Command.ofArgs (args : List String) : Except UsageFault Command := readArgs .empty args

end PLZero.Cli
