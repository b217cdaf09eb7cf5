import StackMachine.Word
import StackMachine.Cell
import StackMachine.Opcode
import StackMachine.Instr
import StackMachine.Item
import StackMachine.Program
import StackMachine.Text.Decimal
import StackMachine.Text.Blank
import StackMachine.Text.Tokens
import StackMachine.Listing
import StackMachine.Frame
import StackMachine.Fault
import StackMachine.Statement
import StackMachine.Source
import StackMachine.State
import StackMachine.Step
import StackMachine.Run
import StackMachine.Event
import StackMachine.Proofs.Refusal
import StackMachine.Proofs.Transition
import StackMachine.Proofs.CallReturn
import StackMachine.Proofs.Sweep
import StackMachine.Proofs.SourceLines
import StackMachine.Proofs.DispatchSafety
import StackMachine.Proofs.ListingText
import StackMachine.Proofs.Boundary
import StackMachine.Proofs.Reassembly
import StackMachine.Proofs.Termination
import StackMachine.Proofs.Beneath
import StackMachine.Proofs.PostMortem
import StackMachine.Proofs.Writes
import StackMachine.Proofs.Activation
import StackMachine.Proofs.Postfix
import StackMachine.Proofs.Concatenation
import StackMachine.Proofs.SourceListing
import StackMachine.Proofs.Unread
import StackMachine.Proofs.Faults
import StackMachine.Proofs.Addresses
import StackMachine.Proofs.CallLog
import StackMachine.Proofs.Lexis
import StackMachine.Proofs.LineGrammar
import StackMachine.Proofs.Modes
import StackMachine.Proofs.StraightLine
import StackMachine.Proofs.Lossless
import StackMachine.Proofs.StackEffect
import StackMachine.Proofs.LastWrite
import StackMachine.Proofs.InstructionTable
import StackMachine.Proofs.FinalReport
