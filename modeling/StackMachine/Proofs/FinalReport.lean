import StackMachine.Proofs.Recording

/-!
# The final report

A run reports its end when it comes, once, and nothing after it: the last address
and the depth of the stack for a regular end, and for a fault the fault, the
address of the instruction and the program marked there. Until then there is no
such report. It makes no difference which commands have led there, nor in how
much detail the log is kept (`session_ends`).
-/

namespace StackMachine

def Event.isFinal : Event → Bool
  | .halted .. | .faulted .. | .code .. => true
  | .executing .. | .calling .. | .returning .. => false

def Event.isHalted : Event → Bool
  | .halted .. => true
  | _ => false

theorem Event.isFinal_of_warn (e : Event) (h : decide (e.level = .warn) = true) :
    e.isFinal = true := by
  cases e with
  | faulted => rfl
  | executing | halted | calling | returning | code => cases h

theorem Event.isFinal_of_isHalted (e : Event) (h : e.isHalted = true) : e.isFinal = true := by
  cases e with
  | halted => rfl
  | executing | calling | returning | faulted | code => cases h

def records (p : Program) (log : List Event) : List (Level × String) :=
  log.map fun e => (e.level, e.message p)

/-- What is reported last when the step at an address has led to a state. -/
def State.closing (addr : Word) (t : State) : List Event :=
  match t.status with
  | .running => []
  | .halted => [.halted addr t.depth]
  | .faulted fault => [.faulted fault addr, .code addr]

namespace State

variable {p : Program} {s : State}

theorem closing_of_running (addr : Word) (hr : s.isHalted = false) : s.closing addr = [] := by
  unfold closing
  cases h : s.status with
  | running => rfl
  | halted | faulted => simp [isHalted, h] at hr

theorem closing_of_quiet (addr : Word) (halted : s.isHalted = true) (quiet : s.fault? = none) :
    s.closing addr = [.halted addr s.depth] := by
  unfold closing
  cases h : s.status with
  | running => simp [isHalted, h] at halted
  | halted => rfl
  | faulted fault => simp [fault?, h] at quiet

theorem closing_of_fault? (addr : Word) {fault : Fault} (h : s.fault? = some fault) :
    s.closing addr = [.faulted fault addr, .code addr] := by
  unfold closing
  cases hs : s.status with
  | running | halted => simp [fault?, hs] at h
  | faulted recorded =>
    obtain rfl : recorded = fault := by simpa [fault?, hs] using h
    rfl

-- ---------------------------------------------------------------------------
-- One step
-- ---------------------------------------------------------------------------

theorem item_of_halting (hr : s.isHalted = false) (halted : (s.step p).isHalted = true)
    (quiet : (s.step p).fault? = none) : p.item? s.ip = some (.instr (.plain .halt)) := by
  obtain ⟨i, hi, row⟩ := executed_of_quiet hr quiet
  obtain rfl := (row.isHalted_iff hr).1 halted
  exact hi

theorem faultReport_eq_closing (hr : s.isHalted = false)
    (notHalt : p.item? s.ip ≠ some (.instr (.plain .halt))) :
    s.faultReport p = (s.step p).closing s.ip := by
  unfold faultReport closing
  cases h : (s.step p).status with
  | running => simp [fault?, h]
  | faulted fault => simp [fault?, h]
  | halted => exact absurd (item_of_halting hr (by simp [isHalted, h]) (by simp [fault?, h])) notHalt

theorem not_isFinal_of_mem_announcement {e : Event} (h : e ∈ s.announcement p) : e.isFinal = false := by
  obtain ⟨op, -, rfl⟩ := List.mem_map.1 h
  rfl

theorem not_isFinal_of_mem_notices {e : Event} (notHalt : p.item? s.ip ≠ some (.instr (.plain .halt)))
    (h : e ∈ s.notices p) : e.isFinal = false := by
  unfold notices at h
  split at h
  · next halt => exact absurd halt notHalt
  · obtain ⟨caller, -, rfl⟩ := List.mem_map.1 h
    rfl
  · obtain rfl := List.mem_singleton.1 h
    rfl
  · cases h

/-- The events of a step end with the final report, if the step ends the run. -/
theorem events_closing (hr : s.isHalted = false) :
    ∃ earlier, s.events p = earlier ++ (s.step p).closing s.ip ∧
      ∀ e ∈ earlier, e.isFinal = false := by
  by_cases halt : p.item? s.ip = some (.instr (.plain .halt))
  · refine ⟨s.announcement p, ?_, fun e => not_isFinal_of_mem_announcement⟩
    simp [events, hr, notices, faultReport, halt, step_of_instr hr halt, execute, executePlain,
      fault?, closing, depth]
  · refine ⟨s.announcement p ++ s.notices p, ?_, fun e he => ?_⟩
    · rw [events, hr, faultReport_eq_closing hr halt]
      rfl
    · rcases List.mem_append.1 he with he | he
      · exact not_isFinal_of_mem_announcement he
      · exact not_isFinal_of_mem_notices halt he

-- ---------------------------------------------------------------------------
-- Runs
-- ---------------------------------------------------------------------------

theorem not_isFinal_of_running {n : Nat} (hr : (s.run p n).isHalted = false) :
    ∀ e ∈ s.log p n, e.isFinal = false := by
  induction n with
  | zero => simp [log, visited]
  | succ n ih =>
    rw [run_succ_last] at hr
    have before := running_of_step hr
    obtain ⟨earlier, hevents, notYet⟩ := events_closing (p := p) before
    rw [closing_of_running _ hr, List.append_nil] at hevents
    rw [log_succ_last, hevents]
    intro e he
    rcases List.mem_append.1 he with he | he
    · exact ih before e he
    · exact notYet e he

theorem exists_last_step (hr : s.isHalted = false) {n : Nat}
    (halted : (s.run p n).isHalted = true) :
    ∃ m, (s.run p m).isHalted = false ∧ (s.run p m).step p = s.run p n ∧
      s.log p n = s.log p m ++ (s.run p m).events p := by
  induction n with
  | zero => exact nomatch hr.symm.trans halted
  | succ n ih =>
    cases h : (s.run p n).isHalted with
    | false => exact ⟨n, h, (run_succ_last p n s).symm, log_succ_last p n s⟩
    | true =>
      obtain ⟨m, running, last, hlog⟩ := ih h
      refine ⟨m, running, ?_, ?_⟩
      · rw [last, run_succ_last, step_of_isHalted p h]
      · rw [log_succ_last, events, if_pos h, List.append_nil, hlog]

/-- The final report of a run is that of its last step, and is preceded by none. -/
theorem log_closing (hr : s.isHalted = false) (n : Nat) :
    ∃ addr earlier, s.log p n = earlier ++ (s.run p n).closing addr ∧
      (∀ e ∈ earlier, e.isFinal = false) ∧
      ((s.run p n).isHalted = true → ∃ m, (s.run p m).isHalted = false ∧
        (s.run p m).step p = s.run p n ∧ (s.run p m).ip = addr) := by
  cases h : (s.run p n).isHalted with
  | false =>
    refine ⟨s.ip, s.log p n, ?_, not_isFinal_of_running h, nofun⟩
    rw [closing_of_running s.ip h, List.append_nil]
  | true =>
    obtain ⟨m, running, last, hlog⟩ := exists_last_step hr h
    obtain ⟨earlier, hevents, notYet⟩ := events_closing (p := p) running
    refine ⟨(s.run p m).ip, s.log p m ++ earlier, ?_, fun e he => ?_, fun _ =>
      ⟨m, running, last, rfl⟩⟩
    · rw [hlog, hevents, last, List.append_assoc]
    · rcases List.mem_append.1 he with he | he
      · exact not_isFinal_of_running running e he
      · exact notYet e he

-- ---------------------------------------------------------------------------
-- Sessions
-- ---------------------------------------------------------------------------

theorem countP_closing {kind : Event → Bool} (final : ∀ e, kind e = true → e.isFinal = true)
    {earlier : List Event} (notYet : ∀ e ∈ earlier, e.isFinal = false) (closing : List Event) :
    (earlier ++ closing).countP kind = closing.countP kind := by
  have none : earlier.countP kind = 0 := by
    refine List.countP_eq_zero.2 fun e he counted => ?_
    exact nomatch (final e counted).symm.trans (notYet e he)
  rw [List.countP_append, none, Nat.zero_add]

/-- What a log in full detail tells of the end of the run that has led to a state. -/
structure Concludes (p : Program) (t : State) (log : List Event) : Prop where
  running : t.isHalted = false → ∀ e ∈ log, e.isFinal = false
  halted : t.isHalted = true → t.fault? = none → ∃ (earlier : List Event) (addr : Word),
    (∀ e ∈ earlier, e.isFinal = false) ∧ log = earlier ++ [Event.halted addr t.depth] ∧
      addr.toInt = t.ip.toInt - 1 ∧
      records p log = records p earlier ++
        [(Level.debug, "Halted at " ++ addr.toDecimal ++ " with stack depth " ++
          String.ofList (Text.Decimal.ofNat t.depth))]
  faulted : ∀ fault, t.fault? = some fault → ∃ (earlier : List Event) (last : State),
    (∀ e ∈ earlier, e.isFinal = false) ∧
      log = earlier ++ [Event.faulted fault last.ip, Event.code last.ip] ∧
      (Reachable p last ∧ last.isHalted = false ∧ last.step p = t) ∧
      records p log = records p earlier ++
        [(Level.warn, fault.message ++ " at " ++ last.ip.toDecimal ++ ", halting"),
          (Level.debug, "Code:\n" ++ p.listing (some last.ip))]
  warnings : log.countP (·.level = .warn) = if t.fault?.isSome then 1 else 0
  halts : log.countP Event.isHalted = if t.isHalted && t.fault?.isNone then 1 else 0

theorem toInt_ip_of_halting (small : p.size < 2 ^ 60) (hr : s.isHalted = false)
    (halted : (s.step p).isHalted = true) (quiet : (s.step p).fault? = none) :
    s.ip.toInt = (s.step p).ip.toInt - 1 := by
  have hi := item_of_halting hr halted quiet
  have behind := Program.toInt_after small hi
  rw [step_of_instr hr hi]
  simp only [execute, executePlain, Instr.size] at behind ⊢
  omega

theorem log_concludes (small : p.size < 2 ^ 60) (nonempty : p.isEmpty = false) (n : Nat) :
    Concludes p ((initial p).run p n) ((initial p).log p n) := by
  have start : (initial p).isHalted = false := by simp [initial, isHalted, nonempty]
  obtain ⟨addr, earlier, hlog, notYet, ended⟩ := log_closing (p := p) start n
  rw [hlog]
  constructor
  case running =>
    intro running
    rwa [closing_of_running addr running, List.append_nil]
  case halted =>
    intro halted quiet
    obtain ⟨m, running, last, rfl⟩ := ended halted
    rw [← last] at halted quiet
    have exact := toInt_ip_of_halting small running halted quiet
    rw [last] at halted quiet exact
    rw [closing_of_quiet _ halted quiet]
    exact ⟨earlier, _, notYet, rfl, exact, List.map_append⟩
  case faulted =>
    intro fault hf
    obtain ⟨m, running, last, rfl⟩ := ended (isHalted_of_fault? hf)
    rw [closing_of_fault? _ hf]
    exact ⟨earlier, _, notYet, rfl, ⟨⟨m, rfl⟩, running, last⟩, List.map_append⟩
  case warnings =>
    rw [countP_closing Event.isFinal_of_warn notYet]
    unfold closing fault?
    cases ((initial p).run p n).status <;> rfl
  case halts =>
    rw [countP_closing Event.isFinal_of_isHalted notYet]
    unfold closing fault? State.isHalted
    cases ((initial p).run p n).status <;> rfl

/-- However a program is run, by steps and runs in any order, the log in full
detail tells how it has ended, if it has, and from then on stays as it is. At a
level of less detail all is the same but for the events left out. -/
theorem session_ends (small : p.size < 2 ^ 60) (nonempty : p.isEmpty = false)
    {commands : List Command} {r : Recording}
    (performed : Performs .trace p commands (.start p) r) :
    Concludes p r.state r.log ∧
    (r.state.isHalted = true → ∀ more t, Performs .trace p more r t ↔ t = r) ∧
    ∀ level t, Performs level p commands (.start p) t ↔ t = r.keep level := by
  refine ⟨?_, performs_iff_of_isHalted, performs_iff_keep performed⟩
  obtain ⟨n, rfl⟩ := performed.exists_run
  rw [Level.select_trace]
  exact log_concludes small nonempty n

def strayReturn : Program := .ofList [1, 5, 19]

theorem strayReturn_ends :
    ∃ r, Performs .trace strayReturn [.step, .run, .step, .run] (.start strayReturn) r ∧
      r.state.fault? = some .stackOp ∧ r.log.countP (·.level = .warn) = 1 ∧
      records strayReturn r.log =
        [(.trace, "[0000] PUSH"), (.trace, "[0002] RET"),
         (.warn, "stack operation fault at 2, halting"),
         (.debug, "Code:\n  [0000] PUSH 5\n> [0002] RET\n")] ∧
      Performs .warn strayReturn [.step, .run, .step, .run] (.start strayReturn)
        ⟨r.state, [.faulted .stackOp 2]⟩ := by
  have performed :
      Performs .trace strayReturn [.step, .run, .step, .run] (.start strayReturn) _ :=
    .step (.runOn (by decide) (.runEnd (by decide) (.step (.runEnd (by decide) (.nil _)))))
  obtain ⟨concludes, -, levels⟩ := session_ends (by decide) (by decide) performed
  refine ⟨_, performed, by decide, concludes.warnings, ?_, ?_⟩
  · decide +kernel
  · exact (levels .warn _).2 (by rfl)

end State

end StackMachine
