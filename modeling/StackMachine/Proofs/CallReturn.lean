import StackMachine.Proofs.Transition

/-!
# Calls return to their callers

A call puts its caller on top of the waiting ones. As long as the call depth
stays above that of the caller, a run leaves this part of the call stack as it
is, whatever it stores, pushes, calls or jumps to; the step that goes back to
the caller's depth is a return and restores the caller
(`call_return_restores`).
-/

namespace StackMachine.State

variable {p : Program} {s : State} {below : List Caller} {caller : Caller}

-- ---------------------------------------------------------------------------
-- One step
-- ---------------------------------------------------------------------------

theorem step_callers_suffix (h : below <:+ s.callers)
    (deep : below.length ≤ (s.step p).callDepth) : below <:+ (s.step p).callers := by
  cases hr : s.isHalted with
  | true => rwa [step_of_isHalted p hr]
  | false =>
    cases step_control (p := p) hr with
    | stopped _ _ callers => rwa [callers]
    | continued _ _ _ _ callers => rwa [callers]
    | jumped _ _ _ _ callers => rwa [callers]
    | called _ _ _ callers =>
      rw [callers]
      exact h.trans (List.suffix_cons _ _)
    | returned _ waiting _ _ _ callers =>
      rw [callDepth, callers] at deep
      rw [waiting, List.suffix_cons_iff] at h
      rw [callers]
      rcases h with rfl | h
      · simp only [List.length_cons] at deep
        omega
      · exact h

/-- A caller is removed from the call stack by a return to it and by nothing else. -/
theorem step_back_to_caller (h : caller :: below <:+ s.callers)
    (back : (s.step p).callDepth = below.length) :
    s.isHalted = false ∧ p.item? s.ip = some (.instr (.plain .ret)) ∧
      (s.step p).isHalted = false ∧ (s.step p).ip = caller.returnAddress ∧
      (s.step p).frame = caller.frame ∧ (s.step p).callers = below := by
  -- the depth falls in this step, which only a return brings about
  have higher := h.length_le
  rw [List.length_cons] at higher
  have unchanged : (s.step p).callers ≠ s.callers := by
    intro same
    rw [callDepth, same] at back
    omega
  cases hr : s.isHalted with
  | true => exact absurd (by rw [step_of_isHalted p hr]) unchanged
  | false =>
    cases step_control (p := p) hr with
    | stopped _ _ callers => exact absurd callers unchanged
    | continued _ _ _ _ callers => exact absurd callers unchanged
    | jumped _ _ _ _ callers => exact absurd callers unchanged
    | called _ _ _ callers =>
      rw [callDepth, callers, List.length_cons] at back
      omega
    | returned item waiting running ip frame callers =>
      rw [waiting] at h
      rw [callDepth, callers] at back
      have same := h.eq_of_length (by simp [back])
      cases same
      exact ⟨rfl, item, running, ip, frame, callers⟩

-- ---------------------------------------------------------------------------
-- Runs
-- ---------------------------------------------------------------------------

theorem run_callers_suffix (h : below <:+ s.callers) {n : Nat}
    (deep : ∀ k ≤ n, below.length ≤ (s.run p k).callDepth) : below <:+ (s.run p n).callers := by
  induction n with
  | zero => exact h
  | succ n ih =>
    have before := ih fun k hk => deep k (Nat.le_succ_of_le hk)
    have after := deep (n + 1) (Nat.le_refl _)
    rw [run_succ_last] at after ⊢
    exact step_callers_suffix before after

theorem step_of_call {target : Word} (hr : s.isHalted = false)
    (hcall : p.item? s.ip = some (.instr (.operand .call target))) :
    (s.step p).callers = ⟨(Opcode.operand .call).after s.ip, s.frame⟩ :: s.callers := by
  rw [step_of_instr hr hcall]
  rfl

/-- While a run stays above the depth of a call's caller, the caller and those
below it keep their place, with the address behind the call; a step back to
that depth is a return, after which the caller goes on there with its own
variables and its own callers. -/
theorem call_return_restores (small : p.size < 2 ^ 60) {target : Word} (hr : s.isHalted = false)
    (hcall : p.item? s.ip = some (.instr (.operand .call target))) {n : Nat}
    (inside : ∀ k ≤ n, s.callDepth < ((s.step p).run p k).callDepth) :
    ∃ behind : Word, behind.toInt = s.ip.toInt + 2 ∧
      (∀ k ≤ n, ⟨behind, s.frame⟩ :: s.callers <:+ ((s.step p).run p k).callers) ∧
      (((s.step p).run p (n + 1)).callDepth = s.callDepth →
        ((s.step p).run p n).isHalted = false ∧
        p.item? ((s.step p).run p n).ip = some (.instr (.plain .ret)) ∧
        ((s.step p).run p (n + 1)).isHalted = false ∧
        ((s.step p).run p (n + 1)).ip = behind ∧
        ((s.step p).run p (n + 1)).frame = s.frame ∧
        ((s.step p).run p (n + 1)).callers = s.callers) := by
  have waits : ∀ k ≤ n, ⟨(Opcode.operand .call).after s.ip, s.frame⟩ :: s.callers <:+
      ((s.step p).run p k).callers := by
    intro k hk
    refine run_callers_suffix ?_ fun j hj => inside j (Nat.le_trans hj hk)
    exact step_of_call hr hcall ▸ List.suffix_rfl
  refine ⟨(Opcode.operand .call).after s.ip, ?_, waits, fun back => ?_⟩
  · simpa [Instr.size, Instr.opcode] using Program.toInt_after small hcall
  · rw [run_succ_last] at back ⊢
    exact step_back_to_caller (waits n (Nat.le_refl _)) back

def nestedCalls : Program :=
  .ofList [18, 3, 0, 1, 1, 17, 0, 18, 10, 19, 1, 2, 17, 0, 19]

theorem nested_call_returns :
    ((initial nestedCalls).run nestedCalls 8).ip.toInt = 2 ∧
      ((initial nestedCalls).run nestedCalls 8).frame = .empty ∧
      ((initial nestedCalls).run nestedCalls 8).callers = [] := by
  have hcall : nestedCalls.item? (initial nestedCalls).ip = some (.instr (.operand .call 3)) := by
    decide +kernel
  have inside : ∀ k ≤ 6, (initial nestedCalls).callDepth <
      (((initial nestedCalls).step nestedCalls).run nestedCalls k).callDepth := by
    decide +kernel
  obtain ⟨behind, hbehind, -, returns⟩ :=
    call_return_restores (p := nestedCalls) (by decide) (by decide) hcall inside
  obtain ⟨-, -, -, hip, hframe, hcallers⟩ := returns (by decide +kernel)
  rw [run_succ, hip, hframe, hcallers]
  exact ⟨hbehind, rfl, rfl⟩

end StackMachine.State
