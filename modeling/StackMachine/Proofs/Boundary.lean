import StackMachine.Proofs.ListingText
import StackMachine.Proofs.Sweep

/-!
# Runs along a listing

If jumps and calls do not lead into instructions, a run goes from one line of
the listing to another, until it leaves the program. The line marked for its
address is then what it executes next (`line_of_reachable`), and the lines that
show no instruction are those that it faults on.
-/

namespace StackMachine

namespace Item

theorem text_shows_no_instr_iff (item : Item) :
    "?? ".toList <+: item.text.toList ∨ " <missing>".toList <:+ item.text.toList ↔
      ∀ i, item ≠ .instr i := by
  constructor
  · rintro shows i rfl
    rcases shows with h | h
    · have hc := text_of_instr i (h.subset (List.mem_cons_self : '?' ∈ _))
      exact absurd hc (by decide)
    · have hc := text_of_instr i (h.subset (by decide : '<' ∈ " <missing>".toList))
      exact absurd hc (by decide)
  · intro h
    rcases item with i | op | w
    · exact absurd rfl (h i)
    · exact .inr ⟨op.mnemonic.toList, by simp [text]⟩
    · exact .inl ⟨w.toDecimal.toList, by simp [text]⟩

end Item

namespace Program

variable {p : Program} {addr : Word} {line : Line}

-- ---------------------------------------------------------------------------
-- Marked lines
-- ---------------------------------------------------------------------------

theorem isMarked_iff : line.isMarked (some addr) = true ↔ addr.toInt = line.index := by
  simp [Line.isMarked, Word.index?_eq_some_iff]

/-- The lines with the mark in front, as a reader finds them in the listing. -/
def markedLines (p : Program) (addr : Word) : List String :=
  (Text.lines (p.listing (some addr))).filter fun text => text.toList.head? = some '>'

theorem markedLines_eq (p : Program) (addr : Word) :
    p.markedLines addr =
      (p.lines.filter (·.isMarked (some addr))).map (·.text (some addr)) := by
  rw [markedLines, lines_listing, List.filter_map]
  congr 2
  funext line
  cases h : line.isMarked (some addr) <;> simp [Line.head_text, h]

theorem isMarked_of_split {before after : List Line} (hsplit : p.lines = before ++ line :: after)
    (ha : addr.toInt = line.index) :
    (∀ other ∈ before, other.isMarked (some addr) = false) ∧
      ∀ other ∈ after, other.isMarked (some addr) = false := by
  have hpairwise := p.lines_pairwise
  rw [hsplit, List.pairwise_append, List.pairwise_cons] at hpairwise
  obtain ⟨-, ⟨hafter, -⟩, hbefore⟩ := hpairwise
  have unmarked (other : Line) (elsewhere : other.index ≠ line.index) :
      other.isMarked (some addr) = false := by
    by_contra marked
    have here := isMarked_iff.1 (by simpa using marked)
    omega
  exact ⟨fun other ho => unmarked other (Nat.ne_of_lt (hbefore other ho line List.mem_cons_self)),
    fun other ho => unmarked other (Nat.ne_of_gt (hafter other ho))⟩

theorem markedLines_of_mem (hl : line ∈ p.lines) (ha : addr.toInt = line.index) :
    p.markedLines addr = [line.text (some addr)] := by
  obtain ⟨before, after, hsplit⟩ := List.append_of_mem hl
  obtain ⟨hbefore, hafter⟩ := isMarked_of_split hsplit ha
  have noneBefore : before.filter (·.isMarked (some addr)) = [] :=
    List.filter_eq_nil_iff.2 fun other ho => by simp [hbefore other ho]
  have noneAfter : after.filter (·.isMarked (some addr)) = [] :=
    List.filter_eq_nil_iff.2 fun other ho => by simp [hafter other ho]
  rw [markedLines_eq, hsplit, List.filter_append, noneBefore,
    List.filter_cons_of_pos (isMarked_iff.2 ha), noneAfter]
  rfl

theorem markedLines_of_not_boundary (h : ¬ p.IsBoundary addr) : p.markedLines addr = [] := by
  have none : p.lines.filter (·.isMarked (some addr)) = [] :=
    List.filter_eq_nil_iff.2 fun line hl hm => h ⟨line, hl, isMarked_iff.1 hm⟩
  rw [markedLines_eq, none]
  rfl

-- ---------------------------------------------------------------------------
-- Aligned programs
-- ---------------------------------------------------------------------------

/-- Jumps and calls in the listing lead to lines of it or out of the program. -/
def Aligned (p : Program) : Prop :=
  ∀ line ∈ p.lines, ∀ w op target, p.words[line.index]? = some w →
    Opcode.ofWord? w = some (.operand op) → op.isTransfer = true →
    p.words[line.index + 1]? = some target → p.IsBoundary target ∨ p.Outside target

def shown (w : Word) (following : Option Word) : String :=
  match Opcode.ofWord? w with
  | none => "?? " ++ w.toDecimal
  | some op =>
    if op.hasOperand then
      op.mnemonic ++ " " ++ match following with
        | some value => value.toDecimal
        | none => "<missing>"
    else op.mnemonic

theorem text_read (w : Word) (following : Option Word) :
    (Item.read w following).text = shown w following := by
  unfold shown Item.read
  split <;> simp_all [Item.text, Opcode.hasOperand, Opcode.mnemonic, String.append_assoc]

theorem isBoundary_of_inside (h : p.IsBoundary addr ∨ p.Outside addr) {item : Item}
    (hi : p.item? addr = some item) : p.IsBoundary addr := by
  rcases h with h | h
  · exact h
  · rw [item?_eq_none_iff.2 h] at hi
    cases hi

theorem confines_of_aligned (small : p.size < 2 ^ 60) (aligned : p.Aligned) :
    State.Confines p (fun addr => p.IsBoundary addr ∨ p.Outside addr)
      (fun addr => p.IsBoundary addr ∨ addr.toInt = p.size) where
  start := by
    cases h : p.isEmpty with
    | true => exact .inr (.inr (by simp [(isEmpty_iff_size p).1 h]))
    | false => exact .inl (isBoundary_zero h)
  next := by
    intro addr i h hi _
    rcases (isBoundary_of_inside h hi).next small hi with h | ⟨h, -⟩
    · exact .inl h
    · exact .inr (.inr (by omega))
  target := by
    intro addr op target h hi transfer
    obtain ⟨line, hl, ha⟩ := isBoundary_of_inside h hi
    obtain ⟨hop, htarget⟩ := words_of_operand small ha hi
    exact aligned line hl op.code op target hop (Opcode.ofWord?_operand op) transfer htarget
  link := by
    intro addr target h hi
    exact ((isBoundary_of_inside h hi).next small hi).imp_right And.left
  back := by
    rintro addr (h | h)
    · exact .inl h
    · exact .inr (.inr (by omega))

end Program

-- ---------------------------------------------------------------------------
-- Runs
-- ---------------------------------------------------------------------------

namespace State

open Text

variable {p : Program} {s : State}

/-- A run of an aligned program keeps to the lines of its listing. The line
marked for its address shows the words there, which are what it executes next
unless they are no instruction; outside the program no line is marked. -/
theorem line_of_reachable (small : p.size < 2 ^ 60) (aligned : p.Aligned) (reached : Reachable p s)
    (hr : s.isHalted = false) :
    (p.IsBoundary s.ip ∨ p.Outside s.ip) ∧
    (∀ caller ∈ s.callers,
      p.IsBoundary caller.returnAddress ∨ caller.returnAddress.toInt = p.size) ∧
    (0 ≤ s.ip.toInt → s.ip.toInt < p.size → ∃ w text, p.fetch s.ip = some w ∧
      text = Program.shown w (p.fetch s.ip.next) ∧
      p.markedLines s.ip =
        ["> [" ++ String.ofList (Decimal.padded 4 (Decimal.ofInt s.ip.toInt)) ++ "] " ++ text] ∧
      ("?? ".toList <+: text.toList ∨ " <missing>".toList <:+ text.toList ↔
        (s.step p).fault? = some .dispatch) ∧
      ((s.step p).fault? ≠ some .dispatch → ∃ i, (Item.instr i).text = text ∧
        s.step p = { s with ip := i.opcode.after s.ip }.execute i)) ∧
    (p.Outside s.ip → p.markedLines s.ip = [] ∧ (s.step p).fault? = some .dispatch) := by
  obtain ⟨hip, hcallers⟩ := reached.within (Program.confines_of_aligned small aligned)
  refine ⟨hip hr, hcallers, fun hlo hhi => ?_, fun outside => ?_⟩
  · obtain ⟨line, hl, ha⟩ := (hip hr).resolve_right fun h => by
      rcases h with h | h <;> omega
    have hread := Program.item?_of_mem_lines small hl ha
    obtain ⟨w, hw, hitem⟩ := Option.map_eq_some_iff.1 hread
    refine ⟨w, _, hw, rfl, ?_, ?_, ?_⟩
    · rw [Program.markedLines_of_mem hl ha, ← Program.text_read, hitem, Line.text,
        Program.isMarked_iff.2 ha, ha]
      rfl
    · rw [← Program.text_read, hitem, Item.text_shows_no_instr_iff, step_fault_dispatch_iff hr,
        hread]
      simp
    · intro hfault
      rw [ne_eq, step_fault_dispatch_iff hr, hread] at hfault
      simp only [ne_eq, Option.some.injEq, Classical.not_forall, Classical.not_not] at hfault
      obtain ⟨i, hi⟩ := hfault
      rw [← Program.text_read, hitem, hi]
      exact ⟨i, rfl, step_of_instr hr (hread.trans (congrArg some hi))⟩
  · have unread := Program.item?_eq_none_iff.2 outside
    refine ⟨Program.markedLines_of_not_boundary ?_, ?_⟩
    · rintro ⟨line, hl, ha⟩
      rw [Program.item?_of_mem_lines small hl ha] at unread
      cases unread
    · rw [step_of_none hr unread, fault?_stop]

def detour : Program := .ofList [18, 4, 0, 20, 1, 7, 15, 100, 19, 14]

theorem detour_aligned : detour.Aligned := by
  have cases : ∀ line ∈ detour.lines,
      detour.words[line.index + 1]? = some 4 ∨ detour.words[line.index + 1]? = some 100 ∨
        detour.words[line.index + 1]? = none ∨
        ((detour.words[line.index]?.bind Opcode.ofWord?).all fun op => match op with
          | .operand op => !op.isTransfer
          | .plain _ => true) = true := by
    decide
  have lineAtFour : ⟨4, .instr (.operand .push 7)⟩ ∈ detour.lines := by decide
  intro line hl w op target hw hop transfer htarget
  rcases cases line hl with h | h | h | h
  · cases htarget.symm.trans h
    exact .inl ⟨_, lineAtFour, rfl⟩
  · cases htarget.symm.trans h
    exact .inr (.inr (by decide))
  · cases htarget.symm.trans h
  · simp [hw, hop, transfer] at h

theorem marked_line_of_detour :
    ((initial detour).run detour 2).isHalted = false ∧
      detour.markedLines ((initial detour).run detour 2).ip = ["> [0006] JIF 100"] := by
  have running : ((initial detour).run detour 2).isHalted = false := by decide
  obtain ⟨-, -, inside, -⟩ := line_of_reachable (by decide) detour_aligned ⟨2, rfl⟩ running
  obtain ⟨w, text, hw, rfl, marked, -⟩ := inside (by decide) (by decide)
  have fetched : detour.fetch ((initial detour).run detour 2).ip = some 15 := by decide
  cases hw.symm.trans fetched
  exact ⟨running, marked.trans (by decide)⟩

end State

end StackMachine
