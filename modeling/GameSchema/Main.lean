import GameSchema.Command.Run

/-!
# The program

Reads what a command line names, lets the command run on it, prints what the command says and ends
with its code.
-/

namespace GameSchema.Command

def readFile (path : String) : IO (Except ReadFault ByteArray) := do
  try
    return .ok (← IO.FS.readBinFile path)
  catch
    | .inappropriateType _ code _ =>
      return .error (if code = 21 then .isDirectory else .notDirectory)
    | _ => return .error .notFound

/-- Reads the rest of the input stream, behind the bytes read so far. -/
partial def readInput (input : IO.FS.Stream) (bytes : ByteArray) : IO ByteArray := do
  let more ← input.read 65536
  if more.isEmpty then return bytes
  readInput input (bytes ++ more)

/-- Reads everything that an invocation may need. -/
def gather (i : Invocation) : IO Surroundings := do
  let files ← i.paths.mapM fun path => return (path, ← readFile path)
  let input ← if i.readsInput then readInput (← IO.getStdin) .empty else pure .empty
  let settingsFile ← match ← IO.getEnv "HOME" with
    | none => pure none
    | some home =>
      let path := home ++ "/.cge/config.toml"
      pure (some (path, ← readFile path))
  return ⟨fun path => (files.lookup path).getD (.error .notFound), input, settingsFile⟩

/-- What a command line prints, and its exit code. -/
def respond (r : Request) : IO Outcome :=
  match r with
  | .run i => return r.perform (← gather i)
  | r => return r.perform ⟨fun _ => .error .notFound, .empty, none⟩

end GameSchema.Command

def main (args : List String) : IO UInt32 := do
  let o ← GameSchema.Command.respond (.ofArguments args)
  (← IO.getStdout).putStr o.out
  (← IO.getStderr).putStr o.err
  return UInt32.ofNat o.code
