import StackMachine.Text.Blank

/-!
# Tokens

The tokens of a text are its maximal runs of characters that are not blank.
The laws below determine them: leading blanks do not matter, and a run that
ends where the text ends or a blank follows is the first token.
-/

namespace StackMachine.Text

/-- Ends a run, given last character first; between two blanks there is none. -/
def closeRun (run : List Char) (others : List (List Char)) : List (List Char) :=
  if run.isEmpty then others else run.reverse :: others

/-- The runs of a text that continues `run`, given last character first. -/
def gather (run : List Char) : List Char → List (List Char)
  | [] => closeRun run []
  | c :: rest => if isBlank c then closeRun run (gather [] rest) else gather (c :: run) rest

def runs (text : List Char) : List (List Char) := gather [] text

def tokens (text : String) : List String := (runs text.toList).map String.ofList

def EndsRun (rest : List Char) : Prop := ∀ c ∈ rest.head?, isBlank c = true

@[simp] theorem runs_nil : runs [] = [] := rfl

theorem runs_cons_of_isBlank {c : Char} (h : isBlank c = true) (rest : List Char) :
    runs (c :: rest) = runs rest := by
  simp [runs, gather, closeRun, h]

theorem gather_append (run : List Char) {more : List Char} (h : ∀ c ∈ more, isBlank c = false)
    (rest : List Char) : gather run (more ++ rest) = gather (more.reverse ++ run) rest := by
  induction more generalizing run with
  | nil => rfl
  | cons c more ih =>
    simp [gather, h c (by simp), ih (c :: run) fun x hx => h x (List.mem_cons_of_mem _ hx)]

theorem gather_of_endsRun (run : List Char) {rest : List Char} (h : EndsRun rest) :
    gather run rest = closeRun run (runs rest) := by
  cases rest with
  | nil => rfl
  | cons c rest => simp [runs, gather, closeRun, h c rfl]

theorem runs_append {run rest : List Char} (hne : run ≠ []) (hrun : ∀ c ∈ run, isBlank c = false)
    (hrest : EndsRun rest) : runs (run ++ rest) = run :: runs rest := by
  rw [runs, gather_append [] hrun, gather_of_endsRun _ hrest]
  simp [closeRun, hne]

theorem runs_eq_self {run : List Char} (hne : run ≠ []) (hrun : ∀ c ∈ run, isBlank c = false) :
    runs run = [run] := by
  have atEnd : EndsRun [] := by simp [EndsRun]
  simpa using runs_append hne hrun atEnd

end StackMachine.Text
