import StackMachine.Proofs.Transition
import StackMachine.Proofs.Writes

/-!
# Variables belong to activations

An activation begins with a call, or with the program, and its steps are those
taken since then while no call that it made is open. Which steps these are is
told from the instructions executed alone (`activation`). The variables a state
holds for an activation, be it the current one or one that waits, are what the
stores among its own steps have left (`variables_of_activation`): neither what
its callers nor what the routines it called have stored.
-/

namespace StackMachine.State

variable {p : Program} {s : State} {history : List State} {level before : Nat}

-- ---------------------------------------------------------------------------
-- Activations of a history
-- ---------------------------------------------------------------------------

/-- How many calls of an activation were open before the step from `s`, if
`level` are open after it: a return has closed one and a call has opened one.
Before the call that it began with there was no activation. -/
def levelBefore (p : Program) (s : State) (level : Nat) : Option Nat :=
  match p.item? s.ip with
  | some (.instr (.plain .ret)) => some (level + 1)
  | some (.instr (.operand .call _)) => level.ppred
  | _ => some level

/-- The steps of the activation of which `level` calls are open: the current one
for none, its caller for one. Steps are given by the states in which they were
taken, the latest first. -/
def activation (p : Program) : Nat → List State → List State
  | _, [] => []
  | level, s :: earlier =>
    match s.levelBefore p level with
    | none => []
    | some 0 => s :: activation p 0 earlier
    | some (inner + 1) => activation p (inner + 1) earlier

def store? (p : Program) (s : State) : Option (Word × Cell) :=
  match p.item? s.ip, s.stack with
  | some (.instr (.operand .store slot)), value :: _ => some (slot, value)
  | _, _ => none

def stores (p : Program) (level : Nat) (history : List State) : List (Word × Cell) :=
  (activation p level history).filterMap (·.store? p)

theorem stores_cons_of_none (h : s.levelBefore p level = none) :
    stores p level (s :: history) = [] := by
  simp [stores, activation, h]

theorem stores_cons (h : s.levelBefore p level = some before) :
    stores p level (s :: history) =
      (if before = 0 then (s.store? p).toList else []) ++ stores p before history := by
  cases before with
  | zero =>
    simp only [stores, activation, h]
    cases hs : s.store? p <;> simp [hs]
  | succ inner => simp [stores, activation, h]

-- ---------------------------------------------------------------------------
-- One step
-- ---------------------------------------------------------------------------

def frames (s : State) : List Frame := s.frame :: s.callers.map Caller.frame

/-- A return drops the variables of the current activation, a call puts an empty
frame on top, and all other steps at most write to the current one. -/
theorem step_frames (hr : (s.step p).isHalted = false) :
    match p.item? s.ip with
    | some (.instr (.plain .ret)) => (s.step p).frames = s.frames.tail
    | some (.instr (.operand .call _)) => (s.step p).frames = .empty :: s.frames
    | _ => (s.step p).frames =
        (s.store? p).toList.foldr Frame.write s.frame :: s.frames.tail := by
  obtain ⟨i, hi, row⟩ := executed_of_quiet (p := p) (running_of_step hr) (fault?_eq_none hr)
  rw [hi]
  generalize s.step p = t at row hr ⊢
  cases row with
  | halt => cases hr
  | @ret caller rest waiting =>
    have first : s.callers = caller :: rest := waiting
    simp [frames, first]
  | @store slot top rest operands =>
    have first : s.stack = top :: rest := operands
    simp [frames, store?, hi, first, Frame.write]
  | _ => simp [frames, store?, hi]

def Remembers (p : Program) (history : List State) (s : State) : Prop :=
  ∀ level f, s.frames[level]? = some f → f = Frame.ofWrites (stores p level history)

theorem step_remembers (hr : (s.step p).isHalted = false) (h : Remembers p history s) :
    Remembers p (s :: history) (s.step p) := by
  intro level f hf
  have hframes := step_frames hr
  split at hframes
  · next hi =>
    -- back in the caller: what was one level out is current
    have inside : s.levelBefore p level = some (level + 1) := by simp [levelBefore, hi]
    rw [hframes, List.getElem?_tail] at hf
    rw [stores_cons inside]
    exact h (level + 1) f hf
  · next hi =>
    -- a new activation, and all others one level further out
    rw [hframes] at hf
    cases level with
    | zero =>
      obtain rfl : Frame.empty = f := by simpa using hf
      rw [stores_cons_of_none (by simp [levelBefore, hi])]
      rfl
    | succ outer =>
      have outside : s.levelBefore p (outer + 1) = some outer := by simp [levelBefore, hi]
      have nothing : s.store? p = none := by simp [store?, hi]
      rw [stores_cons outside, nothing]
      simpa using h outer f hf
  · next notReturn notCall =>
    have same : s.levelBefore p level = some level := by
      unfold levelBefore
      split
      · next hi => cases notReturn hi
      · next hi => cases notCall _ hi
      · rfl
    rw [hframes] at hf
    rw [stores_cons same]
    cases level with
    | zero =>
      obtain rfl := Option.some.inj hf
      rw [if_pos rfl, Frame.ofWrites_append, ← h 0 s.frame rfl]
    | succ outer => simpa using h (outer + 1) f (by simpa using hf)

-- ---------------------------------------------------------------------------
-- Runs
-- ---------------------------------------------------------------------------

theorem run_remembers {n : Nat} (hr : ((initial p).run p n).isHalted = false) :
    Remembers p ((initial p).visited p n).reverse ((initial p).run p n) := by
  induction n with
  | zero =>
    intro level f hf
    cases level with
    | zero =>
      obtain rfl := Option.some.inj hf
      rfl
    | succ outer => simp [initial, frames] at hf
  | succ n ih =>
    rw [run_succ_last] at hr ⊢
    have running := running_of_step hr
    rw [visited_succ_last p n _ running, List.reverse_append]
    exact step_remembers hr (ih running)

theorem step_of_load {slot : Word} (hr : s.isHalted = false)
    (hi : p.item? s.ip = some (.instr (.operand .load slot))) :
    (s.step p).stack = s.frame.get slot :: s.stack := by
  rw [step_of_instr hr hi]
  rfl

/-- In every state that a run comes to and goes on from, the variables of the
current activation and of each that waits are those that it has stored itself,
and LOAD reads the latest of them. -/
theorem variables_of_activation {n : Nat} (hr : ((initial p).run p n).isHalted = false) :
    ((initial p).run p n).frame.Holds (stores p 0 ((initial p).visited p n).reverse) ∧
      (∀ (outer : Nat) (caller : Caller), ((initial p).run p n).callers[outer]? = some caller →
        caller.frame.Holds (stores p (outer + 1) ((initial p).visited p n).reverse)) ∧
      ∀ slot, p.item? ((initial p).run p n).ip = some (.instr (.operand .load slot)) →
        ((initial p).run p (n + 1)).stack =
          ((stores p 0 ((initial p).visited p n).reverse).lookup slot).getD 0 ::
            ((initial p).run p n).stack := by
  have remembers := run_remembers hr
  have current : ((initial p).run p n).frame.Holds
      (stores p 0 ((initial p).visited p n).reverse) := by
    rw [remembers 0 _ rfl]
    exact Frame.holds_ofWrites _
  refine ⟨current, fun outer caller hc => ?_, fun slot hi => ?_⟩
  · have waiting : ((initial p).run p n).frames[outer + 1]? = some caller.frame := by
      simp [frames, hc]
    rw [remembers (outer + 1) _ waiting]
    exact Frame.holds_ofWrites _
  · rw [run_succ_last, step_of_load hr hi, current.1]

def sameSlot : Program := .ofList [1, 7, 17, 0, 18, 9, 16, 0, 0, 1, 8, 17, 0, 19]

theorem sameSlot_loads_own :
    ((initial sameSlot).run sameSlot 6).isHalted = false ∧
      ((initial sameSlot).run sameSlot 6).frame.size = 1 ∧
      ((initial sameSlot).run sameSlot 7).stack = [.ofWord 7] := by
  have running : ((initial sameSlot).run sameSlot 6).isHalted = false := by decide +kernel
  obtain ⟨current, -, loads⟩ := variables_of_activation running
  have own : stores sameSlot 0 ((initial sameSlot).visited sameSlot 6).reverse =
      [(0, .ofWord 7)] := by
    rfl
  rw [own] at current loads
  refine ⟨running, current.2, ?_⟩
  rw [loads 0 (by decide +kernel)]
  rfl

end StackMachine.State
