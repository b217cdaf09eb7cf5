import StackMachine.Proofs.Concatenation
import StackMachine.Proofs.Lexis

/-!
# The grammar of a line

What a line of source may hold, and which error is reported of a line that holds
something else (`assembles_by_grammar`). A line is a mnemonic with as many
numbers as its opcode takes, or in lenient source a name that is no mnemonic.
Of several things wrong with a line the first one counts, from left to right;
what follows a complete statement is looked at last.
-/

namespace StackMachine

open Text

variable {mode : Mode} {tokens : List String} {words : List Word} {name token : String}

-- ---------------------------------------------------------------------------
-- The grammar
-- ---------------------------------------------------------------------------

def Word.InRange (i : Int) : Prop := -2 ^ 63 ≤ i ∧ i < 2 ^ 63

def Opcode.IsUnknown (name : String) : Prop := ∀ op : Opcode, name ≠ op.mnemonic

/-- The tokens that make up a statement, with the words it stands for. -/
inductive Complete (mode : Mode) : List String → List Word → Prop
  | plain (op : PlainOp) : Complete mode [op.mnemonic] [op.code]
  | operand (op : OperandOp) {token : String} {value : Word}
      (number : Decimal.Denotes token.toList value.toInt) :
      Complete mode [op.mnemonic, token] [op.code, value]
  | unknown {name : String} (unknown : Opcode.IsUnknown name) (lenient : mode = .lenient) :
      Complete mode [name] [Opcode.unmapped]

/-- What the tokens of a line come to: words, or an error. -/
inductive Reads (mode : Mode) : List String → Except LineError (List Word) → Prop
  | blank : Reads mode [] (.ok [])
  | complete {tokens : List String} {words : List Word} (h : Complete mode tokens words) :
      Reads mode tokens (.ok words)
  | extra {tokens : List String} {words : List Word} (h : Complete mode tokens words)
      (token : String) (rest : List String) :
      Reads mode (tokens ++ token :: rest) (.error (.unexpectedToken token))
  | missing (op : OperandOp) : Reads mode [op.mnemonic] (.error (.missingArgument op.mnemonic))
  | invalid (op : OperandOp) {token : String}
      (noWord : ∀ i, Decimal.Denotes token.toList i → ¬ Word.InRange i) (rest : List String) :
      Reads mode (op.mnemonic :: token :: rest) (.error (.invalidArgument token))
  | refused {name : String} (unknown : Opcode.IsUnknown name) (strict : mode = .strict)
      (rest : List String) : Reads mode (name :: rest) (.error (.unknownMnemonic name))

-- ---------------------------------------------------------------------------
-- Numbers and names
-- ---------------------------------------------------------------------------

theorem Word.ofDecimal?_eq_some_iff {value : Word} :
    ofDecimal? token = some value ↔ Decimal.Denotes token.toList value.toInt := by
  simp [ofDecimal?, Option.bind_eq_some_iff, ofInt?_eq_some_iff, ← Decimal.toInt?_eq_some_iff]

theorem Word.ofInt?_eq_none_iff {i : Int} : ofInt? i = none ↔ ¬ InRange i := by
  unfold ofInt? InRange
  split <;> simp_all

theorem Word.ofDecimal?_eq_none_iff :
    ofDecimal? token = none ↔ ∀ i, Decimal.Denotes token.toList i → ¬ InRange i := by
  simp only [ofDecimal?, Option.bind_eq_none_iff, Decimal.toInt?_eq_some_iff, ofInt?_eq_none_iff]

theorem Opcode.ofMnemonic?_eq_none_iff : ofMnemonic? name = none ↔ IsUnknown name := by
  simp only [Option.eq_none_iff_forall_ne_some, ne_eq, ofMnemonic?_eq_some_iff, IsUnknown]

-- ---------------------------------------------------------------------------
-- One line
-- ---------------------------------------------------------------------------

namespace Statement

def encode (mode : Mode) : List String → Except LineError (List Word)
  | [] => .ok []
  | name :: rest => (ofTokens mode name rest).map Statement.words

theorem reads_closedBy (s : Statement) (h : Complete mode tokens s.words) (rest : List String) :
    Reads mode (tokens ++ rest) ((closedBy s rest).map Statement.words) := by
  cases rest with
  | nil => simpa [closedBy, Except.map] using Reads.complete h
  | cons token rest => exact .extra h token rest

theorem reads_encode (mode : Mode) (tokens : List String) :
    Reads mode tokens (encode mode tokens) := by
  cases tokens with
  | nil => exact .blank
  | cons name rest =>
    rw [encode]
    unfold ofTokens
    split
    · next op known =>
      obtain rfl := Opcode.ofMnemonic?_eq_some_iff.1 known
      exact reads_closedBy (.instr (.plain op)) (.plain op) rest
    · next op known =>
      obtain rfl := Opcode.ofMnemonic?_eq_some_iff.1 known
      cases rest with
      | nil => exact .missing op
      | cons token rest =>
        dsimp only
        split
        · next value number =>
          exact reads_closedBy (.instr (.operand op value))
            (.operand op (Word.ofDecimal?_eq_some_iff.1 number)) rest
        · next noWord => exact .invalid op (Word.ofDecimal?_eq_none_iff.1 noWord) rest
    · next unknown =>
      have name := Opcode.ofMnemonic?_eq_none_iff.1 unknown
      exact reads_closedBy .unknown (.unknown name rfl) rest
    · next unknown => exact .refused (Opcode.ofMnemonic?_eq_none_iff.1 unknown) rfl rest

theorem encode_of_complete (h : Complete mode tokens words) (rest : List String) :
    ∃ s : Statement, s.words = words ∧
      encode mode (tokens ++ rest) = (closedBy s rest).map Statement.words := by
  cases h with
  | plain op => exact ⟨.instr (.plain op), rfl, by simp [encode, ofTokens]⟩
  | operand op number =>
    refine ⟨.instr (.operand op _), rfl, ?_⟩
    simp [encode, ofTokens, Word.ofDecimal?_eq_some_iff.2 number]
  | unknown unknown lenient =>
    refine ⟨.unknown, rfl, ?_⟩
    simp [encode, ofTokens, Opcode.ofMnemonic?_eq_none_iff.2 unknown, lenient]

theorem encode_of_reads {result : Except LineError (List Word)} (h : Reads mode tokens result) :
    result = encode mode tokens := by
  cases h with
  | blank => rfl
  | complete h =>
    obtain ⟨s, rfl, encoded⟩ := encode_of_complete h []
    rw [List.append_nil] at encoded
    exact encoded.symm
  | extra h token rest =>
    obtain ⟨s, rfl, encoded⟩ := encode_of_complete h (token :: rest)
    exact encoded.symm
  | missing op => simp [encode, ofTokens, Except.map]
  | invalid op noWord rest =>
    simp [encode, ofTokens, Word.ofDecimal?_eq_none_iff.2 noWord, Except.map]
  | refused unknown strict rest =>
    simp [encode, ofTokens, Opcode.ofMnemonic?_eq_none_iff.2 unknown, strict, Except.map]

theorem reads_iff {result : Except LineError (List Word)} :
    Reads mode tokens result ↔ result = encode mode tokens :=
  ⟨encode_of_reads, fun h => h ▸ reads_encode mode tokens⟩

end Statement

-- ---------------------------------------------------------------------------
-- A line among others
-- ---------------------------------------------------------------------------

namespace Program

open Statement

theorem assemble_single (mode : Mode) (line : String) :
    assemble mode [line] =
      match encode mode (Text.tokens line) with
      | .error cause => .error ⟨1, cause⟩
      | .ok words => .ok (.ofList words) := by
  rw [assemble, ofLines, ofLine]
  cases Text.tokens line with
  | nil => rfl
  | cons name rest =>
    dsimp only [encode]
    cases ofTokens mode name rest with
    | error cause => rfl
    | ok s => simp [Except.map, ofLines, ofStatements]

/-- Errors before a line come first and those behind it last; where there are
none, its words stand between those of the other lines. -/
theorem assemble_around (mode : Mode) (line : String) (before after : List String) :
    assemble mode (before ++ line :: after) =
      match assemble mode before, encode mode (Text.tokens line), assemble mode after with
      | .error e, _, _ => .error e
      | .ok _, .error cause, _ => .error ⟨before.length + 1, cause⟩
      | .ok _, .ok _, .error e => .error ⟨before.length + 1 + e.line, e.cause⟩
      | .ok p, .ok words, .ok q => .ok (.ofList (p.words.toList ++ words ++ q.words.toList)) := by
  have split : before ++ line :: after = before ++ ([line] ++ after) := rfl
  rw [split, assemble_append, assemble_append, assemble_single]
  cases assemble mode before with
  | error e => rfl
  | ok p =>
    cases encode mode (Text.tokens line) with
    | error cause => rfl
    | ok words => cases assemble mode after <;> simp [Nat.add_assoc]

theorem maximalRuns_tokens (line : String) (runs : List (List Char)) :
    MaximalRuns line.toList runs ↔ runs = (Text.tokens line).map String.toList := by
  rw [← runs_eq_iff, Text.tokens, List.map_map]
  simp [Function.comp_def, eq_comm]

/-- What a line does wherever it stands: its tokens are the maximal runs of
characters that are not blank, they come to words or an error in one way only,
and the words take their place in the program, or the error is reported unless
there is one before it. Nothing but the tokens matters. -/
theorem assembles_by_grammar (mode : Mode) (line : String) :
    (∀ runs, MaximalRuns line.toList runs ↔ runs = (Text.tokens line).map String.toList) ∧
    (∃ result, (∀ other, Reads mode (Text.tokens line) other ↔ other = result) ∧
      ∀ before after, assemble mode (before ++ line :: after) =
        match assemble mode before, result, assemble mode after with
        | .error e, _, _ => .error e
        | .ok _, .error cause, _ => .error ⟨before.length + 1, cause⟩
        | .ok _, .ok _, .error e => .error ⟨before.length + 1 + e.line, e.cause⟩
        | .ok p, .ok words, .ok q =>
          .ok (.ofList (p.words.toList ++ words ++ q.words.toList))) ∧
    ∀ other, Text.tokens other = Text.tokens line → ∀ before after,
      assemble mode (before ++ other :: after) = assemble mode (before ++ line :: after) := by
  refine ⟨maximalRuns_tokens line, ⟨encode mode (Text.tokens line), fun _ => reads_iff,
    assemble_around mode line⟩, fun other same before after => ?_⟩
  rw [assemble_around, assemble_around, same]

/-- What stands where a number should stand is refused before what follows it. -/
example : assemble .lenient ["JMP 1.5 7"] = .error ⟨1, .invalidArgument "1.5"⟩ := by
  decide +kernel

theorem highestWord_assembled :
    Text.tokens "\u3000PUSH\n+09223372036854775807" = Text.tokens "PUSH +09223372036854775807" ∧
      assemble .strict (["DUP"] ++ "\u3000PUSH\n+09223372036854775807" :: ["HALT"]) =
        .ok (.ofList [3, 1, Int64.maxValue, 0]) := by
  have same : Text.tokens "\u3000PUSH\n+09223372036854775807" =
      Text.tokens "PUSH +09223372036854775807" := by decide +kernel
  obtain ⟨-, -, interchange⟩ := assembles_by_grammar .strict "PUSH +09223372036854775807"
  refine ⟨same, ?_⟩
  rw [interchange _ same]
  decide +kernel

end Program

end StackMachine
