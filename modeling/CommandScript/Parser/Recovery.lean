import CommandScript.Parser.Cursor
/-!
# CommandScript — going on after a mistake

Where no rule of the grammar fits, tokens are skipped up to one at which reading
can go on. Nothing is dropped silently: skipped tokens are kept in a node.
-/

namespace CommandScript

/-- Where reading can go on. -/
structure Recovery where
  /-- Kinds of token that end the skipping. -/
  kinds : List TokenKind
  /-- The first token of a line ends the skipping. -/
  atLineBreak : Bool := false

namespace Recovery

/-- Reading can go on at the token. -/
def accepts (r : Recovery) (t : Token) : Bool :=
  r.kinds.contains t.kind || (r.atLineBreak && t.flags.lineBreakBefore)

/-- Skip the token the cursor is at and everything up to the next token at which
reading can go on; nothing at the end of the text. -/
def skip (r : Recovery) : Parse (Option Skipped) := do
  let c ← get
  if c.atEnd then pure none
  else
    let first ← Parse.bump
    let others ← Parse.bumpWhile (!r.accepts ·)
    return some ⟨first :: others, ← Parse.spanFrom c.offset⟩

/-- Skip again and again up to the end of the text, noting each time whether
reading could have gone on. -/
def skipAll (r : Recovery) : Nat → Parse (List (Skipped × Bool))
  | 0 => pure []
  | rounds + 1 => do
    let could := r.accepts (← get).token
    match ← r.skip with
    | none => pure []
    | some node => return (node, could) :: (← skipAll r rounds)

end Recovery

namespace Parse

/-- Report nesting that is too deep and skip the rest of the text. -/
def tooDeep : Parse (Option Skipped) := do
  reportTooDeep
  let c ← get
  if c.atEnd then pure none
  else
    let tokens ← bumpWhile fun _ => true
    return some ⟨tokens, ← spanFrom c.offset⟩

/-- The tokens up to the first one of the given kinds that stands outside
brackets opened on the way. -/
def balancedRun (stop : List TokenKind) : Nat → List Token → List Token
  | _, [] => []
  | depth, t :: rest =>
    if depth = 0 ∧ stop.contains t.kind then []
    else
      let opens := [TokenKind.leftParen, .leftBracket, .leftBrace].contains t.kind
      let closes := [TokenKind.rightParen, .rightBracket, .rightBrace].contains t.kind
      t :: balancedRun stop (if opens then depth + 1 else if closes then depth - 1 else depth) rest

/-- Skip what stands behind the statement that leaves a block, and report it
unless it is nothing but semicolons. -/
def skipUnreachable (stop : List TokenKind) : Parse Unit := do
  let _ ← bumpWhile fun t => t.kind == .semicolon && !stop.contains t.kind
  let c ← get
  let run := balancedRun stop 0 c.upcoming
  if run.isEmpty then pure ()
  else
    set { c with upcoming := c.upcoming.drop run.length, last := run.getLast? }
    report (.of .unreachableStatement (← spanFrom c.offset))

end Parse

end CommandScript
