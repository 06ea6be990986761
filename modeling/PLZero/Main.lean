import PLZero.Cli.Session

/-!
# The command line program
-/

namespace PLZero.Cli

/-- More steps than any run takes. -/
def stepBudget : Nat := 1 <<< 62

def bytesOf (b : ByteArray) : List UInt8 := b.toList

def fileFault : IO.Error → FileFault
  | .noFileOrDirectory .. => .notFound
  | .inappropriateType _ 20 _ => .notDirectory
  | .inappropriateType _ 21 _ => .isDirectory
  | .invalidArgument _ 36 _ => .nameTooLong
  | e => .other (toString e)

/-- When the last phase ended, when the first began, and what the phases took. -/
structure Clock where
  began : Nat
  last : Nat
  phases : List (Phase × Nat)

def readAll (stream : IO.FS.Stream) : IO ByteArray := do
  let mut all := ByteArray.empty
  let mut more := true
  while more do
    let chunk ← stream.read 65536
    all := all ++ chunk
    more := !chunk.isEmpty
  return all

def systemShell (clock : IO.Ref Clock) : Shell IO where
  readFile path := do
    try return .ok (bytesOf (← IO.FS.readBinFile path))
    catch e => return .error (fileFault e)
  writeFile path contents := do
    try
      IO.FS.writeBinFile path ⟨contents.toArray⟩
      return .ok ()
    catch e => return .error (fileFault e)
  print text := do (← IO.getStdout).putStr text
  printError text := do (← IO.getStderr).putStr text
  input := do return bytesOf (← readAll (← IO.getStdin))
  mark phase := do
    let now ← IO.monoMsNow
    clock.modify fun c =>
      let start := if phase = .total then c.began else c.last
      { c with last := now, phases := (phase, now - start) :: c.phases }
  elapsed phase := return (← clock.get).phases.lookup phase

end PLZero.Cli

open PLZero.Cli in
def main (args : List String) : IO UInt32 := do
  let now ← IO.monoMsNow
  run (systemShell (← IO.mkRef ⟨now, now, []⟩)) stepBudget args
