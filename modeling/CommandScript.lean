import CommandScript.Token.Lexer
import CommandScript.Tree.Outline
import CommandScript.Host.Recorder
import CommandScript.Main
import CommandScript.Proofs.Escape
import CommandScript.Proofs.Idle
import CommandScript.Proofs.Known
import CommandScript.Proofs.Unknown
import CommandScript.Proofs.Clean
import CommandScript.Proofs.Reentry
import CommandScript.Proofs.ReadBack
import CommandScript.Proofs.Leaving
import CommandScript.Proofs.Halting
import CommandScript.Proofs.Progress
import CommandScript.Proofs.Enclosing
import CommandScript.Proofs.Bindings
import CommandScript.Proofs.Trivia
import CommandScript.Proofs.Joined
import CommandScript.Proofs.Unreachable
import CommandScript.Proofs.AtCaret
import CommandScript.Proofs.Hidden
import CommandScript.Proofs.Lossless
import CommandScript.Proofs.Tight
import CommandScript.Proofs.Lawful
import CommandScript.Proofs.Climbing
import CommandScript.Proofs.Roomier
import CommandScript.Proofs.Deeper
import CommandScript.Proofs.Steady
import CommandScript.Proofs.Reordered
import CommandScript.Proofs.Offered
import CommandScript.Proofs.AtField
import CommandScript.Proofs.Lines
import CommandScript.Proofs.Flags
import CommandScript.Proofs.Stray
import CommandScript.Proofs.ByItself
import CommandScript.Proofs.Registered
import CommandScript.Proofs.FinalSigma
import CommandScript.Proofs.Lookup
import CommandScript.Proofs.Attached
import CommandScript.Proofs.Delimited
import CommandScript.Proofs.InComment
import CommandScript.Proofs.Resolved
import CommandScript.Proofs.Founded
