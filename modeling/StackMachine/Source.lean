import StackMachine.Statement
import StackMachine.Program

/-!
# Source text

A source is a list of lines, numbered from one. Its program is the words of
its statements, one after the other: there are no labels, so every statement
is encoded by itself. The first line in error is the one that is reported.
-/

namespace StackMachine

structure SourceError where
  line : Nat
  cause : LineError
  deriving DecidableEq, Repr

def SourceError.message (e : SourceError) : String :=
  "line " ++ String.ofList (Text.Decimal.ofNat e.line) ++ ": " ++ e.cause.message

def Statement.ofLines (mode : Mode) (number : Nat) :
    List String → Except SourceError (List Statement)
  | [] => .ok []
  | line :: rest =>
    match Statement.ofLine mode line with
    | .ok none => ofLines mode (number + 1) rest
    | .ok (some s) => (ofLines mode (number + 1) rest).map (s :: ·)
    | .error cause => .error ⟨number, cause⟩

namespace Program

def ofStatements (statements : List Statement) : Program :=
  .ofList (statements.flatMap Statement.words)

def assemble (mode : Mode) (lines : List String) : Except SourceError Program :=
  (Statement.ofLines mode 1 lines).map ofStatements

end Program

end StackMachine
