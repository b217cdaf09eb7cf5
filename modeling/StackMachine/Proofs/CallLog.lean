import StackMachine.Event
import StackMachine.Proofs.ListingText
import StackMachine.Proofs.Transition

/-!
# The call log

What a run reports of calls and returns is a record of its call stack. Read a
call as an opening bracket and a return as a closing one: every return closes
the innermost call that is still open and goes back to the address which that
call has announced, and the calls left open are those whose callers wait
(`call_log`). Which events are brackets, and for which addresses, can be told
from their text.
-/

namespace StackMachine

-- ---------------------------------------------------------------------------
-- Brackets
-- ---------------------------------------------------------------------------

namespace Event

def isCalling : Event → Bool
  | .calling .. => true
  | _ => false

def isReturning : Event → Bool
  | .returning .. => true
  | _ => false

def isBracket (e : Event) : Bool := e.isCalling || e.isReturning

/-- What an event makes of the addresses awaited by open calls, the innermost
first. A return closes the innermost call, whatever its address. -/
def update (awaited : List Word) : Event → List Word
  | .calling _ _ returnAddress => returnAddress :: awaited
  | .returning .. => awaited.tail
  | _ => awaited

end Event

/-- The addresses that the calls left open by a report will return to, the
innermost first. -/
def openCalls (events : List Event) : List Word := events.foldl Event.update []

structure Balanced (events : List Event) : Prop where
  returns_le : ∀ earlier, earlier <+: events →
    earlier.countP Event.isReturning ≤ earlier.countP Event.isCalling
  matched : ∀ earlier addr returnAddress, earlier ++ [.returning addr returnAddress] <+: events →
    (openCalls earlier).head? = some returnAddress

/-- The events match calls that were open before them, and each other. -/
def Matched : List Word → List Event → Prop
  | _, [] => True
  | awaited, e :: rest =>
    (∀ addr returnAddress, e = .returning addr returnAddress →
      awaited.head? = some returnAddress) ∧ Matched (e.update awaited) rest

variable {awaited : List Word} {events more : List Event}

theorem matched_append :
    Matched awaited (events ++ more) ↔
      Matched awaited events ∧ Matched (events.foldl Event.update awaited) more := by
  induction events generalizing awaited with
  | nil => simp [Matched]
  | cons e rest ih => simp [Matched, ih, and_assoc]

theorem Matched.of_prefix (h : Matched awaited more) (before : events <+: more) :
    Matched awaited events := by
  obtain ⟨rest, rfl⟩ := before
  exact (matched_append.1 h).1

theorem Matched.countP_le (h : Matched awaited events) :
    events.countP Event.isReturning ≤ events.countP Event.isCalling + awaited.length := by
  induction events generalizing awaited with
  | nil => simp
  | cons e rest ih =>
    have counted := ih h.2
    rw [List.countP_cons, List.countP_cons]
    cases e with
    | calling target addr returnAddress =>
      simp only [Event.isCalling, Event.isReturning, Event.update, List.length_cons,
        Bool.false_eq_true, if_false, if_true] at counted ⊢
      omega
    | returning addr returnAddress =>
      cases awaited with
      | nil => cases h.1 addr returnAddress rfl
      | cons innermost outer =>
        simp only [Event.isCalling, Event.isReturning, Event.update, List.length_cons,
          List.tail_cons, Bool.false_eq_true, if_false, if_true] at counted ⊢
        omega
    | _ => simpa [Event.isCalling, Event.isReturning, Event.update] using counted

theorem balanced_of_matched (h : Matched [] events) : Balanced events where
  returns_le earlier before := by simpa using (h.of_prefix before).countP_le
  matched earlier addr returnAddress before :=
    (matched_append.1 (h.of_prefix before)).2.1 addr returnAddress rfl

theorem matched_filter {keep : Event → Bool} (h : ∀ e, e.isBracket = true → keep e = true)
    (awaited : List Word) (events : List Event) :
    (Matched awaited (events.filter keep) ↔ Matched awaited events) ∧
      (events.filter keep).foldl Event.update awaited = events.foldl Event.update awaited := by
  induction events generalizing awaited with
  | nil => simp
  | cons e rest ih =>
    cases hk : keep e with
    | true => simp [hk, Matched, ih]
    | false =>
      have other : e.isBracket = false := by
        by_contra bracket
        simp [h e (by simpa using bracket)] at hk
      cases e with
      | calling | returning => cases other
      | executing | halted | faulted | code => simp_all [Matched, Event.update]

theorem matched_of_not_brackets (awaited : List Word) (h : ∀ e ∈ events, e.isBracket = false) :
    Matched awaited events ∧ events.foldl Event.update awaited = awaited := by
  have nothing : events.filter Event.isBracket = [] :=
    List.filter_eq_nil_iff.2 fun e he => by simp [h e he]
  obtain ⟨same, after⟩ := matched_filter (fun _ h => h) awaited events
  rw [nothing] at same after
  exact ⟨same.1 trivial, after.symm⟩

-- ---------------------------------------------------------------------------
-- Records
-- ---------------------------------------------------------------------------

namespace Event

variable {p : Program} {e : Event} {target addr returnAddress : Word}

theorem message_eq_calling_iff :
    e.message p = "Calling " ++ target.toDecimal ++ " from " ++ addr.toDecimal ++
        ", returning to " ++ returnAddress.toDecimal ↔
      e = .calling target addr returnAddress := by
  constructor
  · intro h
    unfold message at h
    cases e with
    | calling =>
      simp only [String.append_assoc, ← String.toList_inj, String.toList_append,
        List.append_cancel_left_eq] at h
      obtain ⟨sameTarget, h⟩ := Word.toDecimal_append_inj (by decide) h
      obtain ⟨sameAddr, h⟩ := Word.toDecimal_append_inj (by decide) h
      rw [sameTarget, sameAddr, Word.toDecimal_injective (String.toList_inj.1 h)]
    | faulted fault =>
      simp only [String.append_assoc] at h
      cases fault <;> exact absurd h (Text.append_ne_append (by decide))
    | executing | halted | returning | code =>
      simp only [String.append_assoc] at h
      exact absurd h (Text.append_ne_append (by decide))
  · rintro rfl
    rfl

theorem message_eq_returning_iff :
    e.message p = "Returning from " ++ addr.toDecimal ++ " to " ++ returnAddress.toDecimal ↔
      e = .returning addr returnAddress := by
  constructor
  · intro h
    unfold message at h
    cases e with
    | returning =>
      simp only [String.append_assoc, ← String.toList_inj, String.toList_append,
        List.append_cancel_left_eq] at h
      obtain ⟨sameAddr, h⟩ := Word.toDecimal_append_inj (by decide) h
      rw [sameAddr, Word.toDecimal_injective (String.toList_inj.1 h)]
    | faulted fault =>
      simp only [String.append_assoc] at h
      cases fault <;> exact absurd h (Text.append_ne_append (by decide))
    | executing | halted | calling | code =>
      simp only [String.append_assoc] at h
      exact absurd h (Text.append_ne_append (by decide))
  · rintro rfl
    rfl

end Event

/-- A record tells whether it is of a call or a return, and of which addresses. -/
structure Event.TellsBracket (p : Program) (e : Event) : Prop where
  calling : ∀ target addr returnAddress : Word,
    e.message p = "Calling " ++ target.toDecimal ++ " from " ++ addr.toDecimal ++
        ", returning to " ++ returnAddress.toDecimal ↔
      e = .calling target addr returnAddress
  returning : ∀ addr returnAddress : Word,
    e.message p = "Returning from " ++ addr.toDecimal ++ " to " ++ returnAddress.toDecimal ↔
      e = .returning addr returnAddress

theorem Event.tellsBracket (p : Program) (e : Event) : e.TellsBracket p :=
  ⟨fun _ _ _ => message_eq_calling_iff, fun _ _ => message_eq_returning_iff⟩

namespace State

variable {p : Program} {s : State}

-- ---------------------------------------------------------------------------
-- One step
-- ---------------------------------------------------------------------------

def returnAddresses (s : State) : List Word := s.callers.map Caller.returnAddress

theorem not_isBracket_of_mem {e : Event} (h : e ∈ s.announcement p ∨ e ∈ s.faultReport p) :
    e.isBracket = false := by
  rcases h with h | h
  · obtain ⟨op, -, rfl⟩ := List.mem_map.1 h
    rfl
  · unfold faultReport at h
    split at h
    · simp only [List.mem_cons, List.not_mem_nil, or_false] at h
      rcases h with rfl | rfl <;> rfl
    · cases h

theorem notices_matched (hr : s.isHalted = false) :
    Matched s.returnAddresses (s.notices p) ∧
      (s.notices p).foldl Event.update s.returnAddresses = (s.step p).returnAddresses := by
  unfold notices
  split
  · next hi => simp [step_of_instr hr hi, execute, executePlain, Matched, Event.update,
      returnAddresses]
  · next hi =>
    cases hc : s.callers with
    | nil => simp [step_of_instr hr hi, execute, executePlain, hc, stop, Matched, returnAddresses]
    | cons caller rest =>
      simp [step_of_instr hr hi, execute, executePlain, hc, Matched, Event.update, returnAddresses]
  · next target hi =>
    simp [step_of_instr hr hi, execute, executeOperand, Matched, Event.update, returnAddresses,
      Instr.opcode]
  · next notHalt notReturn notCall =>
    have same : (s.step p).callers = s.callers := by
      cases step_control (p := p) hr with
      | stopped _ _ callers => exact callers
      | continued _ _ _ _ callers => exact callers
      | jumped _ _ _ _ callers => exact callers
      | called item => exact absurd item (notCall _)
      | returned item => exact absurd item notReturn
    simp [returnAddresses, same, Matched]

theorem events_matched (p : Program) (s : State) :
    Matched s.returnAddresses (s.events p) ∧
      (s.events p).foldl Event.update s.returnAddresses = (s.step p).returnAddresses := by
  cases hr : s.isHalted with
  | true => simp [events, hr, step_of_isHalted p hr, Matched]
  | false =>
    obtain ⟨noticed, after⟩ := notices_matched (p := p) hr
    obtain ⟨announced, before⟩ := matched_of_not_brackets s.returnAddresses
      fun e (he : e ∈ s.announcement p) => not_isBracket_of_mem (.inl he)
    obtain ⟨reported, last⟩ := matched_of_not_brackets (s.step p).returnAddresses
      fun e (he : e ∈ s.faultReport p) => not_isBracket_of_mem (.inr he)
    simp only [events, hr, Bool.false_eq_true, if_false, matched_append, List.foldl_append]
    rw [before, after, last]
    exact ⟨⟨⟨announced, noticed⟩, reported⟩, rfl⟩

-- ---------------------------------------------------------------------------
-- Runs
-- ---------------------------------------------------------------------------

theorem log_matched (p : Program) (n : Nat) (s : State) :
    Matched s.returnAddresses (s.log p n) ∧
      (s.log p n).foldl Event.update s.returnAddresses = (s.run p n).returnAddresses := by
  induction n generalizing s with
  | zero => simp [log, visited, Matched]
  | succ n ih =>
    obtain ⟨here, after⟩ := events_matched p s
    rw [log_succ, run_succ, matched_append, List.foldl_append, after]
    exact ⟨⟨here, (ih (s.step p)).1⟩, (ih (s.step p)).2⟩

theorem select_matched {level : Level} (detailed : level.includes .debug = true)
    (awaited : List Word) (events : List Event) :
    (Matched awaited (level.select events) ↔ Matched awaited events) ∧
      (level.select events).foldl Event.update awaited = events.foldl Event.update awaited := by
  refine matched_filter (fun e bracket => ?_) awaited events
  cases e with
  | calling | returning => exact detailed
  | executing | halted | faulted | code => cases bracket

theorem not_isBracket_of_missing
    (missing : p.item? s.ip = some (.truncated .call) ∨
      p.item? s.ip = some (.instr (.plain .ret)) ∧ s.callers = []) :
    ∀ e ∈ s.events p, e.isBracket = false := by
  have unnoticed : s.notices p = [] := by
    rcases missing with hi | ⟨hi, hc⟩
    · simp [notices, hi]
    · simp [notices, hi, hc]
  intro e he
  unfold events at he
  split at he
  · cases he
  · rw [unnoticed, List.append_nil, List.mem_append] at he
    exact not_isBracket_of_mem he

/-- What a run reports in enough detail is balanced, and the calls it leaves
open are those of the waiting callers, with the addresses to go on at. An
incomplete call and a return without a caller add nothing to it, and the records
of calls and returns can be told from all others. -/
theorem call_log (p : Program) (n : Nat) {level : Level} (detailed : level.includes .debug = true) :
    Balanced (level.select ((initial p).log p n)) ∧
    openCalls (level.select ((initial p).log p n)) =
      ((initial p).run p n).callers.map Caller.returnAddress ∧
    (openCalls (level.select ((initial p).log p n))).length = ((initial p).run p n).callDepth ∧
    (∀ s : State, p.item? s.ip = some (.truncated .call) ∨
        p.item? s.ip = some (.instr (.plain .ret)) ∧ s.callers = [] →
      ∀ e ∈ s.events p, e.isBracket = false) ∧
    ∀ e : Event, e.TellsBracket p := by
  obtain ⟨matched, awaits⟩ := log_matched p n (initial p)
  obtain ⟨same, sameAwaited⟩ := select_matched detailed [] ((initial p).log p n)
  have left : openCalls (level.select ((initial p).log p n)) =
      ((initial p).run p n).returnAddresses := sameAwaited.trans awaits
  refine ⟨balanced_of_matched (same.2 matched), left, ?_, fun _ => not_isBracket_of_missing,
    Event.tellsBracket p⟩
  rw [left, returnAddresses, List.length_map, callDepth]

def returnAndStray : Program := .ofList [18, 3, 18, 19]

def returnAndStrayLog : List Event :=
  [.calling 3 0 2, .returning 3 2, .calling 19 2 4, .faulted .dispatch 19, .code 19]

theorem returnAndStray_log :
    Level.includes .debug .debug = true ∧
      Level.debug.select ((initial returnAndStray).log returnAndStray 5) = returnAndStrayLog ∧
      Balanced returnAndStrayLog ∧
      openCalls returnAndStrayLog =
        ((initial returnAndStray).run returnAndStray 5).callers.map Caller.returnAddress ∧
      (Event.calling 19 2 4).message returnAndStray = "Calling 19 from 2, returning to 4" := by
  have detailed : Level.includes .debug .debug = true := by decide
  have log : Level.debug.select ((initial returnAndStray).log returnAndStray 5) =
      returnAndStrayLog := by decide +kernel
  obtain ⟨balanced, left, -, -, tells⟩ := call_log returnAndStray 5 detailed
  rw [log] at balanced left
  exact ⟨detailed, log, balanced, left, ((tells _).calling 19 2 4).2 rfl⟩

end State

end StackMachine
