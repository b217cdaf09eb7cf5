import StackMachine.Proofs.SourceListing
import StackMachine.Proofs.Transition

/-!
# Words that are not read

A step reads the word at its address and, if that is an opcode with an operand,
the following one. Programs that agree on the words read by a run of one of
them have the same run (`run_of_unread`). So words can be appended where a run
does not get to, and lines of source can be replaced by names that are no
mnemonics. Such a name is one word, so a line of one word leaves all others
where they are; a line of two words moves what is behind it.
-/

namespace StackMachine

open Source Statement

-- ---------------------------------------------------------------------------
-- Reading
-- ---------------------------------------------------------------------------

theorem Item.read_congr {w : Word} {following other : Option Word}
    (operand : ∀ op, Opcode.ofWord? w = some (.operand op) → following = other) :
    read w following = read w other := by
  unfold read
  cases hop : Opcode.ofWord? w with
  | none => rfl
  | some op =>
    cases op with
    | plain op => rfl
    | operand op => rw [operand op hop]

theorem Program.item?_congr {p q : Program} {addr : Word} (here : p.fetch addr = q.fetch addr)
    (operand : ∀ op, (p.fetch addr).bind Opcode.ofWord? = some (.operand op) →
      p.fetch addr.next = q.fetch addr.next) :
    p.item? addr = q.item? addr := by
  rw [item?, item?, ← here]
  cases hw : p.fetch addr with
  | none => rfl
  | some w =>
    rw [hw] at operand
    exact congrArg some (Item.read_congr operand)

namespace State

variable {p q : Program} {s : State} {n : Nat}

/-- The addresses that a step reads. An operand is asked for also where the
program has ended. -/
def reads (p : Program) (s : State) : List Word :=
  if s.isHalted then []
  else match (p.fetch s.ip).bind Opcode.ofWord? with
    | some (.operand _) => [s.ip, s.ip.next]
    | some (.plain _) | none => [s.ip]

theorem forall_reads_of_all {ok : Word → Prop} [DecidablePred ok]
    (all : ∀ i < n, ((s.run p i).reads p).all (decide <| ok ·) = true) :
    ∀ i < n, ∀ addr ∈ (s.run p i).reads p, ok addr :=
  fun i hi addr ha => of_decide_eq_true (List.all_eq_true.1 (all i hi) addr ha)

theorem step_congr (same : ∀ addr ∈ s.reads p, p.fetch addr = q.fetch addr) :
    s.step p = s.step q := by
  cases hr : s.isHalted with
  | true => rw [step_of_isHalted p hr, step_of_isHalted q hr]
  | false =>
    have here : s.ip ∈ s.reads p := by
      simp only [reads, hr, Bool.false_eq_true, if_false]
      split <;> exact List.mem_cons_self
    have hitem : p.item? s.ip = q.item? s.ip := by
      refine Program.item?_congr (same s.ip here) fun op hop => same s.ip.next ?_
      simp [reads, hr, hop]
    rw [step, step, hitem]

theorem run_congr (same : ∀ i < n, ∀ addr ∈ (s.run p i).reads p, p.fetch addr = q.fetch addr)
    {k : Nat} (hk : k ≤ n) : s.run p k = s.run q k := by
  induction k with
  | zero => rfl
  | succ k ih =>
    rw [run_succ_last, run_succ_last, ← ih (Nat.le_of_succ_le hk)]
    exact step_congr (same k hk)

theorem initial_congr (hp : p.isEmpty = false) (hq : q.isEmpty = false) :
    initial p = initial q := by
  rw [initial, initial, hp, hq]

theorem run_initial_congr (hp : p.isEmpty = false) (hq : q.isEmpty = false)
    (same : ∀ i < n, ∀ addr ∈ ((initial p).run p i).reads p, p.fetch addr = q.fetch addr)
    {k : Nat} (hk : k ≤ n) : (initial p).run p k = (initial q).run q k := by
  rw [← initial_congr hp hq]
  exact run_congr same hk

end State

-- ---------------------------------------------------------------------------
-- Appended words
-- ---------------------------------------------------------------------------

theorem Program.fetch_append {p : Program} {more : List Word} {addr : Word}
    (h : addr.toInt < p.size ∨ p.size + more.length ≤ addr.toInt) :
    p.fetch addr = (ofList (p.words.toList ++ more)).fetch addr := by
  rcases Int.lt_or_le addr.toInt 0 with neg | nonneg
  · rw [fetch_of_neg neg, fetch_of_neg neg]
  · obtain ⟨n, hn⟩ := Int.eq_ofNat_of_zero_le nonneg
    have size : p.words.toList.length = p.size := Array.length_toList
    rw [fetch_of_toInt hn, fetch_of_toInt hn, ofList, List.getElem?_toArray,
      ← Array.getElem?_toList]
    rcases h with inside | outside
    · rw [List.getElem?_append_left (by omega)]
    · rw [List.getElem?_eq_none (l := p.words.toList) (by omega),
        List.getElem?_eq_none (by rw [List.length_append]; omega)]

-- ---------------------------------------------------------------------------
-- Replaced lines
-- ---------------------------------------------------------------------------

namespace Source

def IsUnknownName (line : String) : Prop :=
  ∃ name, Text.tokens line = [name] ∧ Opcode.ofMnemonic? name = none

def Masks (lines masked : List String) : Prop :=
  List.Forall₂ (fun line other => other = line ∨ IsUnknownName other) lines masked

/-- Every line that is replaced lies behind the address, or before it if it is
one word wide: a wider line would move the word at the address. -/
def Undisturbed (lines masked : List String) (addr : Int) : Prop :=
  ∀ j (h : j < lines.length), masked[j]? ≠ some lines[j] →
    addr < offset (lines.take j) ∨ width lines[j] = 1 ∧ offset (lines.take j) < addr

instance (lines masked : List String) (addr : Int) : Decidable (Undisturbed lines masked addr) :=
  inferInstanceAs (Decidable (∀ j (_ : j < lines.length), _ → _))

variable {line : String} {lines masked : List String}

def words (lines : List String) : List Word :=
  (lines.filterMap (onLine? .lenient)).flatMap Statement.words

theorem words_cons (line : String) (lines : List String) :
    words (line :: lines) =
      (onLine? .lenient line).toList.flatMap Statement.words ++ words lines := by
  cases h : onLine? .lenient line <;> simp [words, h]

theorem length_words_line (accepted : ∃ s, ofLine .lenient line = .ok s) :
    ((onLine? .lenient line).toList.flatMap Statement.words).length = width line := by
  by_cases blank : IsBlank line
  · simp [onLine?_eq_none_of_blank blank, width_eq_zero blank]
  · obtain ⟨s, hs, hline⟩ := onLine?_eq_some_of_not_blank accepted blank
    simp [hs, (shows_of_ofLine hline).1]

theorem IsUnknownName.ofLine (h : IsUnknownName line) :
    ofLine .lenient line = .ok (some .unknown) := by
  obtain ⟨name, htokens, hname⟩ := h
  simp [Statement.ofLine, htokens, ofTokens, hname, closedBy, Except.map]

theorem getElem?_words_of_masks (masks : Masks lines masked)
    (accepted : ∀ line ∈ lines, ∃ s, Statement.ofLine .lenient line = .ok s) {n : Nat}
    (undisturbed : Undisturbed lines masked n) : (words lines)[n]? = (words masked)[n]? := by
  induction masks generalizing n with
  | nil => rfl
  | @cons line other lines masked here rest ih =>
    obtain ⟨hline, hlines⟩ := List.forall_mem_cons.1 accepted
    have hwidth := length_words_line hline
    have behind : width line ≤ n →
        (words lines)[n - width line]? = (words masked)[n - width line]? := by
      refine fun hn => ih hlines fun j hj hne => ?_
      have := undisturbed (j + 1) (by simpa using hj) (by simpa using hne)
      simp only [offset, List.take_succ_cons, List.map_cons, List.sum_cons,
        List.getElem_cons_succ] at this ⊢
      omega
    rw [words_cons, words_cons]
    by_cases same : other = line
    · rw [same]
      rcases Nat.lt_or_ge n (width line) with inside | outside
      · rw [List.getElem?_append_left (by omega), List.getElem?_append_left (by omega)]
      · rw [List.getElem?_append_right (by omega), List.getElem?_append_right (by omega), hwidth]
        exact behind outside
    · -- both lines are one word wide, and the address lies behind them
      have unknown := (here.resolve_left same).ofLine
      have wide : width line = 1 ∧ 0 < n := by
        have := undisturbed 0 (Nat.zero_lt_succ _) (by simpa using same)
        simp only [offset, List.take_zero, List.map_nil, List.sum_nil,
          List.getElem_cons_zero] at this
        omega
      have hother : onLine? .lenient other = some .unknown := by simp [onLine?, unknown]
      rw [List.getElem?_append_right (by omega), hwidth, behind (by omega), hother, wide.1]
      obtain ⟨m, rfl⟩ := Nat.exists_eq_succ_of_ne_zero (Nat.ne_of_gt wide.2)
      rfl

theorem accepted_of_masks (masks : Masks lines masked)
    (accepted : ∀ line ∈ lines, ∃ s, Statement.ofLine .lenient line = .ok s) :
    ∀ other ∈ masked, ∃ s, Statement.ofLine .lenient other = .ok s := by
  induction masks with
  | nil => simp
  | cons here rest ih =>
    obtain ⟨hline, hlines⟩ := List.forall_mem_cons.1 accepted
    refine List.forall_mem_cons.2 ⟨?_, ih hlines⟩
    rcases here with rfl | unknown
    · exact hline
    · exact ⟨_, unknown.ofLine⟩

theorem filterMap_eq_nil_of_masks (masks : Masks lines masked)
    (h : masked.filterMap (onLine? .lenient) = []) : lines.filterMap (onLine? .lenient) = [] := by
  induction masks with
  | nil => rfl
  | @cons line other lines masked here rest ih =>
    rw [List.filterMap_eq_nil_iff, List.forall_mem_cons] at h
    obtain ⟨hother, hmasked⟩ := h
    rcases here with rfl | unknown
    · rw [List.filterMap_cons_none hother, ih (List.filterMap_eq_nil_iff.2 hmasked)]
    · simp [onLine?, unknown.ofLine] at hother

end Source

namespace Program

variable {lines masked : List String} {p : Program}

theorem assemble_of_masks (assembled : assemble .lenient lines = .ok p) (hp : p.isEmpty = false)
    (masks : Masks lines masked) :
    ∃ q, assemble .lenient masked = .ok q ∧ q.isEmpty = false ∧
      ∀ addr : Word, Undisturbed lines masked addr.toInt → p.fetch addr = q.fetch addr := by
  obtain ⟨accepted, rfl⟩ := assemble_eq_ok_iff.1 assembled
  refine ⟨_, assemble_eq_ok_iff.2 ⟨accepted_of_masks masks accepted, rfl⟩, ?_, ?_⟩
  · rw [← Bool.not_eq_true, isEmpty_ofStatements_iff] at hp ⊢
    exact fun empty => hp (filterMap_eq_nil_of_masks masks empty)
  · intro addr undisturbed
    rcases Int.lt_or_le addr.toInt 0 with neg | nonneg
    · rw [fetch_of_neg neg, fetch_of_neg neg]
    · obtain ⟨n, hn⟩ := Int.eq_ofNat_of_zero_le nonneg
      rw [hn] at undisturbed
      rw [fetch_of_toInt hn, fetch_of_toInt hn]
      simpa [ofStatements, ofList, Source.words] using
        getElem?_words_of_masks masks accepted undisturbed

end Program

-- ---------------------------------------------------------------------------
-- Runs
-- ---------------------------------------------------------------------------

namespace State

open Program

/-- What a run does not read does not matter to it: the words of another program
that has the same at all addresses read; words appended behind; and lines of
source that are replaced by names that are no mnemonics, as far as the words
read are neither theirs nor moved with them. -/
theorem run_of_unread :
    (∀ (p q : Program) (n : Nat), p.isEmpty = false → q.isEmpty = false →
      (∀ i < n, ∀ addr ∈ ((initial p).run p i).reads p, p.fetch addr = q.fetch addr) →
      ∀ k ≤ n, (initial p).run p k = (initial q).run q k) ∧
    (∀ (p : Program) (more : List Word) (n : Nat), p.isEmpty = false →
      (∀ i < n, ∀ addr ∈ ((initial p).run p i).reads p,
        addr.toInt < p.size ∨ p.size + more.length ≤ addr.toInt) →
      ∀ k ≤ n, (initial p).run p k =
        (initial (.ofList (p.words.toList ++ more))).run (.ofList (p.words.toList ++ more)) k) ∧
    (∀ (lines masked : List String) (p : Program) (n : Nat),
      assemble .lenient lines = .ok p → p.isEmpty = false → Masks lines masked →
      (∀ i < n, ∀ addr ∈ ((initial p).run p i).reads p, Undisturbed lines masked addr.toInt) →
      ∃ q, assemble .lenient masked = .ok q ∧
        ∀ k ≤ n, (initial p).run p k = (initial q).run q k) := by
  refine ⟨?_, ?_, ?_⟩
  · intro p q n hp hq same k hk
    exact run_initial_congr hp hq same hk
  · intro p more n hp clear k hk
    have hq : (ofList (p.words.toList ++ more)).isEmpty = false := by
      rw [← Bool.not_eq_true, isEmpty_iff_size] at hp ⊢
      rw [size_ofList, List.length_append, Array.length_toList]
      exact fun h => hp (Nat.eq_zero_of_add_eq_zero_right h)
    exact run_initial_congr hp hq (fun i hi addr ha => fetch_append (clear i hi addr ha)) hk
  · intro lines masked p n assembled hp masks clear
    obtain ⟨q, hassembled, hq, same⟩ := assemble_of_masks assembled hp masks
    refine ⟨q, hassembled, fun k hk => ?_⟩
    exact run_initial_congr hp hq (fun i hi addr ha => same addr (clear i hi addr ha)) hk

def jumpOver (first second : Word) : Program := .ofList [14, 4, first, second, 1, 7, 0]

theorem jumpOver_runs :
    ((initial (jumpOver 19 99)).run (jumpOver 19 99) 3).stack = [7] ∧
    ((initial (.ofList [14, 4, 2, 4, 1, 7, 0, 18])).run
      (.ofList [14, 4, 2, 4, 1, 7, 0, 18]) 3).stack = [7] ∧
    ∃ q, assemble .lenient ["JMP 4", "FOO", "BAR", "PUSH 7", "HALT"] = .ok q ∧
      ((initial q).run q 3).stack = [7] := by
  have stack : ((initial (jumpOver 2 4)).run (jumpOver 2 4) 3).stack = [7] := by decide +kernel
  obtain ⟨agreeing, appended, replaced⟩ := run_of_unread
  refine ⟨?_, ?_, ?_⟩
  · have same := agreeing (jumpOver 2 4) (jumpOver 19 99) 3 (by decide) (by decide)
      (forall_reads_of_all (by decide +kernel)) 3 (Nat.le_refl 3)
    exact (congrArg State.stack same).symm.trans stack
  · have same := appended (jumpOver 2 4) [18] 3 (by decide)
      (forall_reads_of_all (by decide +kernel)) 3 (Nat.le_refl 3)
    exact (congrArg State.stack same).symm.trans stack
  · have masks : Masks ["JMP 4", "POP", "ADD", "PUSH 7", "HALT"]
        ["JMP 4", "FOO", "BAR", "PUSH 7", "HALT"] :=
      .cons (.inl rfl) (.cons (.inr ⟨"FOO", by decide, by decide⟩)
        (.cons (.inr ⟨"BAR", by decide, by decide⟩) (.cons (.inl rfl) (.cons (.inl rfl) .nil))))
    obtain ⟨q, hq, same⟩ := replaced _ _ (jumpOver 2 4) 3 (by decide +kernel) (by decide) masks
      (forall_reads_of_all (by decide +kernel))
    exact ⟨q, hq, (congrArg State.stack (same 3 (Nat.le_refl 3))).symm.trans stack⟩

/-- The line that is replaced is not reached, but it is two words wide: behind
it, `HALT` moves away from where the jump goes. -/
theorem jump_past_end_of_masked :
    let p : Program := .ofList [14, 4, 1, 5, 0]
    let q : Program := .ofList [14, 4, -1, 0]
    assemble .lenient ["JMP 4", "PUSH 5", "HALT"] = .ok p ∧
      assemble .lenient ["JMP 4", "FOO", "HALT"] = .ok q ∧
      Masks ["JMP 4", "PUSH 5", "HALT"] ["JMP 4", "FOO", "HALT"] ∧
      (∀ i < 2, ∀ addr ∈ ((initial p).run p i).reads p, addr ≠ 2 ∧ addr ≠ 3) ∧
      ((initial p).run p 2).status = .halted ∧
      ((initial q).run q 2).status = .faulted .dispatch := by
  refine ⟨by decide +kernel, by decide +kernel, ?_, forall_reads_of_all (by decide +kernel),
    by decide +kernel, by decide +kernel⟩
  exact .cons (.inl rfl) (.cons (.inr ⟨"FOO", by decide, by decide⟩) (.cons (.inl rfl) .nil))

end State

end StackMachine
