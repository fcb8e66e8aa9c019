import CommandScript.Console
/-!
# CommandScript — the command line

Without arguments, lines are read from standard input until it ends; with `-c`, the
line behind it is the only one. All that happens in between is in
`CommandScript.Console`.
-/

namespace CommandScript.Console

/-- Print what a console wrote, and forget it. -/
def flush (c : Console) : IO Console := do
  for chunk in c.state.host.chunks.reverse do
    match chunk with
    | .output text => IO.print text
    | .complaint text => IO.eprint text
  (← IO.getStdout).flush
  return { c with state := { c.state with host := {} } }

/-- Say why no line can follow. -/
def explain : LineResult → IO Unit
  | .crashed crash => IO.eprintln crash.message
  | .exhausted => IO.eprintln "The line takes too long"
  | _ => pure ()

/-- Read and take lines. -/
partial def interact (c : Console) : IO UInt32 := do
  let c ← flush (write [prompt] c)
  let text ← (← IO.getStdin).getLine
  if text.isEmpty then
    IO.println ""
    return 0
  let (result, c) := respond (String.ofList (text.toList.takeWhile (· != '\n'))) c
  let c ← flush c
  if result.goesOn then interact c
  else
    explain result
    return 1

end CommandScript.Console

open CommandScript in
def main (arguments : List String) : IO UInt32 := do
  match arguments with
  | [] => Console.interact Console.start
  | ["-c", text] | ["--command", text] =>
    let (result, c) := Console.evaluate text Console.start
    let _ ← Console.flush c
    Console.explain result
    return result.exitCode.toUInt32
  | _ =>
    IO.eprintln "usage: console [-c COMMAND]"
    return 2
