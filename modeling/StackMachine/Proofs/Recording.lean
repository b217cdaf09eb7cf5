import StackMachine.Proofs.StackEffect

/-!
# Recordings

A machine that writes its log as it goes, each event at the point at which it
comes up and only if the level asks for it. What it does is what the states and
events of a run say (`step_eq`), so the level decides what is kept of the log and
nothing else: a sequence of commands carried out at one level can be carried out
at every other, to the same state, and its log is the part that is kept there of
the log in full detail (`performs_iff_keep`).
-/

namespace StackMachine

-- ---------------------------------------------------------------------------
-- The recording machine
-- ---------------------------------------------------------------------------

structure Recording where
  state : State
  log : List Event

namespace Recording

def start (p : Program) : Recording := ⟨.initial p, []⟩

def keep (level : Level) (r : Recording) : Recording := { r with log := level.select r.log }

section
variable (level : Level) (p : Program)

def report (e : Event) (r : Recording) : Recording :=
  if level.includes e.level then { r with log := r.log ++ [e] } else r

/-- The program is not listed where the listing would not be kept. -/
def stop (fault : Fault) (addr : Word) (r : Recording) : Recording :=
  let warned := r.report level (.faulted fault addr)
  let listed := if level.includes .debug then warned.report level (.code addr) else warned
  { listed with state := listed.state.stop fault }

def execute (addr : Word) (i : Instr) (r : Recording) : Recording :=
  let done : Recording := { r with state := r.state.execute i }
  match done.state.fault?, i with
  | some fault, _ => done.stop level fault addr
  | none, .plain .halt => done.report level (.halted addr done.state.depth)
  | none, .plain .ret => done.report level (.returning addr done.state.ip)
  | none, .operand .call target => done.report level (.calling target addr r.state.ip)
  | none, _ => done

/-- An opcode is reported as soon as it is read, before its operand is missed. -/
def step (r : Recording) : Recording :=
  if r.state.isHalted then r
  else match p.item? r.state.ip with
    | some item =>
      let moved : Recording := { r with state := { r.state with ip := item.after r.state.ip } }
      match item with
      | .instr i =>
        (moved.report level (.executing r.state.ip i.opcode)).execute level r.state.ip i
      | .truncated op =>
        (moved.report level (.executing r.state.ip (.operand op))).stop level .dispatch r.state.ip
      | .unknown _ => moved.stop level .dispatch r.state.ip
    | none =>
      let moved : Recording := { r with state := { r.state with ip := r.state.ip.next } }
      moved.stop level .dispatch r.state.ip

end

variable {level : Level} {p : Program} {r t : Recording}

theorem report_eq (level : Level) (e : Event) (r : Recording) :
    r.report level e = ⟨r.state, r.log ++ level.select [e]⟩ := by
  unfold report
  split
  · next kept => simp [Level.select, kept]
  · next left => simp [Level.select, left]

theorem stop_eq (level : Level) (fault : Fault) (addr : Word) (r : Recording) :
    r.stop level fault addr =
      ⟨r.state.stop fault, r.log ++ level.select [.faulted fault addr, .code addr]⟩ := by
  have listing : level.select [.code addr] =
      if level.includes .debug then [.code addr] else [] := by
    simp [Level.select, List.filter_cons, Event.level]
  have both : level.select [.faulted fault addr, .code addr] =
      level.select [.faulted fault addr] ++ level.select [.code addr] :=
    Level.select_append level [.faulted fault addr] [.code addr]
  unfold stop
  simp only [report_eq, both, listing]
  split <;> simp

theorem stop_of_fault? {s : State} {fault : Fault} (h : s.fault? = some fault) :
    s.stop fault = s := by
  obtain ⟨ip, stack, frame, callers, status⟩ := s
  cases status with
  | faulted recorded =>
    obtain rfl := Option.some.inj h
    rfl
  | running | halted => cases h

theorem notices_of_refusal {s : State} {i : Instr} {fault : Fault}
    (hi : p.item? s.ip = some (.instr i)) (h : i.refusal s = some fault) : s.notices p = [] := by
  unfold State.notices
  rw [hi]
  rcases i with op | ⟨op, value⟩
  · cases op with
    | halt => cases h
    | ret =>
      cases hc : s.callers with
      | nil => rfl
      | cons caller rest => simp [Instr.refusal, State.callDepth, hc] at h
    | pop | dup | not | binary => rfl
  · cases op with
    | call => cases h
    | push | jmp | jif | load | store => rfl

theorem execute_eq {s : State} {i : Instr} (log : List Event) (hr : s.isHalted = false)
    (hi : p.item? s.ip = some (.instr i)) :
    execute level s.ip i ⟨{ s with ip := i.opcode.after s.ip }, log⟩ =
      ⟨s.step p, log ++ level.select (s.notices p ++ s.faultReport p)⟩ := by
  have hstep := State.step_of_instr hr hi
  have moved : { s with ip := i.opcode.after s.ip }.fault? = none := State.fault?_eq_none hr
  have recorded := State.fault?_execute (i := i) moved
  unfold execute
  cases hf : i.refusal { s with ip := i.opcode.after s.ip } with
  | some fault =>
    rw [hf] at recorded
    simp only [recorded, stop_eq, stop_of_fault? recorded, notices_of_refusal hi hf,
      State.faultReport, hstep, List.nil_append]
  | none =>
    have row := State.executed hf
    rw [hf, ← hstep] at recorded
    simp only [State.faultReport, recorded, List.append_nil, ← hstep]
    rw [← hstep] at row
    generalize s.step p = t at row ⊢
    cases row with
    | halt => simp [report_eq, State.notices, hi, State.depth]
    | @ret caller rest waiting =>
      have first : s.callers = caller :: rest := waiting
      simp [report_eq, State.notices, hi, first]
    | call => simp [report_eq, State.notices, hi, Instr.opcode]
    | _ => simp [State.notices, hi]

/-- The log that is written is that of the events, as far as the level asks for them. -/
theorem step_eq (level : Level) (p : Program) (r : Recording) :
    r.step level p = ⟨r.state.step p, r.log ++ level.select (r.state.events p)⟩ := by
  obtain ⟨s, log⟩ := r
  unfold step State.events
  cases hr : s.isHalted with
  | true => simp [State.step_of_isHalted p hr]
  | false =>
    rcases hi : p.item? s.ip with _ | (i | op | w)
    · simp [stop_eq, State.announcement, State.notices, State.faultReport, hi,
        State.step_of_none hr hi]
    · have announced : s.announcement p = [.executing s.ip i.opcode] := by
        simp [State.announcement, hi, Item.opcode?]
      simp only [Bool.false_eq_true, if_false, report_eq, Item.after, Item.opcode?,
        execute_eq _ hr hi, announced, Level.select_append, List.append_assoc]
    · simp [report_eq, stop_eq, State.announcement, State.notices, State.faultReport, hi,
        State.step_of_truncated hr hi, Item.opcode?, Item.after, Opcode.after, Opcode.hasOperand,
        ← Level.select_append]
    · simp [stop_eq, State.announcement, State.notices, State.faultReport, hi,
        State.step_of_unknown hr hi, Item.opcode?, Item.after]

-- ---------------------------------------------------------------------------
-- Commands
-- ---------------------------------------------------------------------------

end Recording

inductive Command where
  | step
  | run
  deriving DecidableEq, Repr

/-- How commands are carried out, one after the other. A run that does not end
leads nowhere. -/
inductive Performs (level : Level) (p : Program) : List Command → Recording → Recording → Prop
  | nil (r : Recording) : Performs level p [] r r
  | step {commands r t} (rest : Performs level p commands (r.step level p) t) :
      Performs level p (.step :: commands) r t
  | runOn {commands r t} (running : r.state.isHalted = false)
      (rest : Performs level p (.run :: commands) (r.step level p) t) :
      Performs level p (.run :: commands) r t
  | runEnd {commands r t} (halted : r.state.isHalted = true)
      (rest : Performs level p commands r t) : Performs level p (.run :: commands) r t

namespace Performs

variable {level : Level} {p : Program} {commands : List Command} {r t u : Recording}

theorem exists_run (h : Performs level p commands r t) :
    ∃ n, t = ⟨r.state.run p n, r.log ++ level.select (r.state.log p n)⟩ := by
  induction h with
  | nil r => exact ⟨0, by simp [State.log, State.visited]⟩
  | @step commands r t rest ih | @runOn commands r t running rest ih =>
    obtain ⟨n, rfl⟩ := ih
    refine ⟨n + 1, ?_⟩
    simp only [Recording.step_eq, State.run_succ, State.log_succ, Level.select_append,
      List.append_assoc]
  | runEnd halted rest ih => exact ih

theorem unique (h : Performs level p commands r t) (other : Performs level p commands r u) :
    u = t := by
  induction h with
  | nil r =>
    cases other
    rfl
  | step rest ih =>
    cases other with
    | step rest => exact ih rest
  | runOn running rest ih =>
    cases other with
    | runOn _ rest => exact ih rest
    | runEnd halted => exact nomatch halted.symm.trans running
  | runEnd halted rest ih =>
    cases other with
    | runOn running => exact nomatch halted.symm.trans running
    | runEnd _ rest => exact ih rest

theorem of_isHalted (halted : r.state.isHalted = true) (commands : List Command) :
    Performs level p commands r r := by
  induction commands with
  | nil => exact .nil r
  | cons command rest ih =>
    cases command with
    | step =>
      refine .step ?_
      rwa [Recording.step, if_pos halted]
    | run => exact .runEnd halted ih

theorem step_keep (level : Level) (p : Program) (r : Recording) :
    (r.keep level).step level p = (r.step .trace p).keep level := by
  simp only [Recording.step_eq, Recording.keep, Level.select_append, Level.select_trace]

theorem keep (h : Performs .trace p commands r t) (level : Level) :
    Performs level p commands (r.keep level) (t.keep level) := by
  induction h with
  | nil r => exact .nil _
  | step rest ih =>
    refine .step ?_
    rwa [step_keep]
  | runOn running rest ih =>
    refine .runOn running ?_
    rwa [step_keep]
  | runEnd halted rest ih => exact .runEnd halted ih

end Performs

theorem performs_iff_of_isHalted {level : Level} {p : Program} {r : Recording}
    (halted : r.state.isHalted = true) (commands : List Command) (t : Recording) :
    Performs level p commands r t ↔ t = r := by
  constructor
  · intro performed
    exact (Performs.of_isHalted halted commands).unique performed
  · rintro rfl
    exact .of_isHalted halted commands

/-- Commands that come to an end in full detail do so at every level, in the same
state, and with the part of the log that the level keeps. -/
theorem performs_iff_keep {p : Program} {commands : List Command} {r t : Recording}
    (full : Performs .trace p commands r t) (level : Level) (u : Recording) :
    Performs level p commands (r.keep level) u ↔ u = t.keep level := by
  constructor
  · intro performed
    exact (full.keep level).unique performed
  · rintro rfl
    exact full.keep level

end StackMachine
