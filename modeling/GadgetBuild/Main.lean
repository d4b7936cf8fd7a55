import GadgetBuild.Command.Run

/-!
The command line program.
-/

open GadgetBuild

/-- The error of a file operation in the terms of the library. -/
def fileError : IO.Error → FileError
  | .noFileOrDirectory _ _ _ => .notFound
  | .inappropriateType _ 20 _ => .notDirectory
  | .inappropriateType _ _ _ => .isDirectory
  | e => .other e.toString.toList

/-- The files of the machine. -/
def machineFiles : FileAccess IO where
  read path := do
    match ← (IO.FS.readBinFile (String.ofList path)).toBaseIO with
    | .error e => return .error (fileError e)
    | .ok bytes =>
      match String.fromUTF8? bytes with
      | none => return .error .notUtf8
      | some s => return .ok s.toList
  write path content := do
    match ← (IO.FS.writeFile (String.ofList path) (String.ofList content)).toBaseIO with
    | .error e => return .error (fileError e)
    | .ok () => return .ok ()

/-- Milliseconds since a time, with two decimals. -/
def millisSince (start : Nat) : IO Text := do
  let hundredths := (← IO.monoNanosNow) - start
  let hundredths := hundredths / 10000
  let places := Text.ofNat (100 + hundredths % 100)
  let text := Text.ofNat (hundredths / 100) ++ '.' :: places.drop 1 ++ " ms".toList
  return Command.painted "1;37".toList text

def main (arguments : List String) : IO UInt32 := do
  let start ← IO.monoNanosNow
  let report ← Command.execute machineFiles (millisSince start) (arguments.map (·.toList))
  IO.print (String.ofList report.stdout)
  IO.eprint (String.ofList report.stderr)
  return report.exitCode.toUInt32
