import StackMachine.Instr
import StackMachine.Text.Decimal
import StackMachine.Text.Tokens

/-!
# Statements

A line of source is blank or holds one statement: a mnemonic, followed by a
decimal number if its opcode takes an operand. The first token that does not
fit decides the error. A name that is no mnemonic is either an error or stands
for a word that no machine can execute.
-/

namespace StackMachine

inductive Statement where
  | instr (i : Instr)
  | unknown
  deriving DecidableEq, Repr

inductive Mode where
  | lenient | strict
  deriving DecidableEq, Repr

inductive LineError where
  | missingArgument (mnemonic : String)
  | invalidArgument (token : String)
  | unexpectedToken (token : String)
  | unknownMnemonic (mnemonic : String)
  deriving DecidableEq, Repr

def LineError.message : LineError → String
  | .missingArgument mnemonic => mnemonic ++ " expects an integer argument"
  | .invalidArgument token => "invalid integer argument '" ++ token ++ "'"
  | .unexpectedToken token => "unexpected token '" ++ token ++ "'"
  | .unknownMnemonic mnemonic => "unknown mnemonic '" ++ mnemonic ++ "'"

namespace Statement

def words : Statement → List Word
  | .instr i => i.words
  | .unknown => [Opcode.unmapped]

def size : Statement → Nat
  | .instr i => i.size
  | .unknown => 1

@[simp] theorem length_words (s : Statement) : s.words.length = s.size := by
  cases s <;> simp [words, size]

def closedBy (s : Statement) : List String → Except LineError Statement
  | [] => .ok s
  | token :: _ => .error (.unexpectedToken token)

def ofTokens (mode : Mode) (name : String) (rest : List String) : Except LineError Statement :=
  match Opcode.ofMnemonic? name, mode with
  | some (.plain op), _ => closedBy (.instr (.plain op)) rest
  | some (.operand op), _ =>
    match rest with
    | [] => .error (.missingArgument name)
    | token :: rest =>
      match Word.ofDecimal? token with
      | some value => closedBy (.instr (.operand op value)) rest
      | none => .error (.invalidArgument token)
  | none, .lenient => closedBy .unknown rest
  | none, .strict => .error (.unknownMnemonic name)

def ofLine (mode : Mode) (line : String) : Except LineError (Option Statement) :=
  match Text.tokens line with
  | [] => .ok none
  | name :: rest => (ofTokens mode name rest).map some

end Statement

end StackMachine
