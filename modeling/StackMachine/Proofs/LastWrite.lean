import StackMachine.Proofs.Writes

/-!
# The last write to a slot wins

Writes to an empty frame leave in each slot written the cell of the last write
to it, and no other slot. All that can be asked of a frame agrees on this: its
cells, its size, whether it is empty, and its slots one after the other
(`last_write_wins`). Hence writes to different slots may change places.
-/

namespace StackMachine.Frame

def afterWrites (writes : List (Word × Cell)) : Frame :=
  writes.foldl (fun f entry => f.set entry.1 entry.2) .empty

/-- The last of the writes to the slot has written the cell. -/
def LastWrite (writes : List (Word × Cell)) (slot : Word) (value : Cell) : Prop :=
  ∃ earlier later, writes = earlier ++ (slot, value) :: later ∧ ∀ entry ∈ later, entry.1 ≠ slot

/-- The writes in another order, which is the same among those to one slot. -/
def Reorders (other writes : List (Word × Cell)) : Prop :=
  ∀ slot, other.filter (·.1 = slot) = writes.filter (·.1 = slot)

variable {f g : Frame} {writes other : List (Word × Cell)} {slot : Word} {value : Cell}

-- ---------------------------------------------------------------------------
-- What frames hold
-- ---------------------------------------------------------------------------

theorem get?_eq_some_iff_mem : f.get? slot = some value ↔ (slot, value) ∈ f.toList := by
  rw [get?, List.lookup_eq_some_iff]
  constructor
  · rintro ⟨before, after, split, -⟩
    simp [split]
  · intro member
    obtain ⟨before, after, split⟩ := List.append_of_mem member
    refine ⟨before, after, split, fun entry he => ?_⟩
    have ascending := f.sorted
    rw [split] at ascending
    have smaller := (List.pairwise_append.1 ascending).2.2 entry he (slot, value) (by simp)
    simpa using (Int64.ne_of_lt smaller).symm

/-- A frame has one form only, so it is determined by its look-ups. -/
theorem ext_get? (h : ∀ slot, f.get? slot = g.get? slot) : f = g := by
  have irrefl : Std.Irrefl fun a b : Word × Cell => a.1 < b.1 := ⟨fun _ => Int64.lt_irrefl⟩
  have antisymm : Std.Antisymm fun a b : Word × Cell => a.1 < b.1 :=
    ⟨fun _ _ less more => absurd more (Int64.lt_asymm less)⟩
  refine ext (f.sorted.eq_of_mem_iff g.sorted ?_)
  rintro ⟨slot, value⟩
  rw [← get?_eq_some_iff_mem, h slot, get?_eq_some_iff_mem]

theorem isEmpty_iff_size (f : Frame) : f.isEmpty = true ↔ f.size = 0 := by
  simp [isEmpty, size]

-- ---------------------------------------------------------------------------
-- Sequences of writes
-- ---------------------------------------------------------------------------

theorem afterWrites_eq (writes : List (Word × Cell)) :
    afterWrites writes = ofWrites writes.reverse :=
  List.foldr_reverse.symm

theorem get?_afterWrites_eq_some_iff :
    (afterWrites writes).get? slot = some value ↔ LastWrite writes slot value := by
  rw [afterWrites_eq, get?_ofWrites, List.lookup_eq_some_iff]
  constructor
  · rintro ⟨later, earlier, split, others⟩
    refine ⟨earlier.reverse, later.reverse, ?_, fun entry he => ?_⟩
    · simpa using congrArg List.reverse split
    · simpa using Ne.symm (by simpa using others entry (List.mem_reverse.1 he))
  · rintro ⟨earlier, later, rfl, others⟩
    refine ⟨later.reverse, earlier.reverse, by simp, fun entry he => ?_⟩
    simpa using Ne.symm (others entry (List.mem_reverse.1 he))

theorem get?_afterWrites_filter (writes : List (Word × Cell)) (slot : Word) :
    (afterWrites (writes.filter (·.1 = slot))).get? slot = (afterWrites writes).get? slot := by
  induction writes using List.reverseRecOn with
  | nil => rfl
  | append_singleton earlier entry ih =>
    obtain ⟨written, value⟩ := entry
    by_cases h : written = slot
    · simp [afterWrites, List.filter_append, List.foldl_append, get?_set, h]
    · simpa [afterWrites, List.filter_append, List.foldl_append, get?_set, h, Ne.symm h] using ih

theorem afterWrites_of_reorders (h : Reorders other writes) :
    afterWrites other = afterWrites writes := by
  refine ext_get? fun slot => ?_
  rw [← get?_afterWrites_filter, h slot, get?_afterWrites_filter]

theorem size_afterWrites (writes : List (Word × Cell)) :
    (afterWrites writes).size = (writes.map Prod.fst).toFinset.card := by
  rw [afterWrites_eq, size_ofWrites, List.map_reverse, List.toFinset_reverse]

theorem isEmpty_afterWrites_iff : (afterWrites writes).isEmpty = true ↔ writes = [] := by
  rw [isEmpty_iff_size, size_afterWrites]
  simp

theorem isSome_get?_afterWrites_iff :
    ((afterWrites writes).get? slot).isSome = true ↔ slot ∈ writes.map Prod.fst := by
  rw [afterWrites_eq, isSome_get?_ofWrites_iff, List.map_reverse, List.mem_reverse]

structure HoldsLast (f : Frame) (writes : List (Word × Cell)) : Prop where
  written : ∀ slot ∈ writes.map Prod.fst, LastWrite writes slot (f.get slot)
  unwritten : ∀ slot ∉ writes.map Prod.fst, f.get slot = 0
  size : f.size = (writes.map Prod.fst).toFinset.card
  isEmpty : f.isEmpty = true ↔ writes = []
  distinct : (f.toList.map Prod.fst).Nodup
  listed : ∀ slot value, (slot, value) ∈ f.toList ↔ LastWrite writes slot value
  found : ∀ slot value, f.get? slot = some value ↔ LastWrite writes slot value

theorem holdsLast_afterWrites (writes : List (Word × Cell)) : (afterWrites writes).HoldsLast writes where
  written slot hs := by
    obtain ⟨value, found⟩ := Option.isSome_iff_exists.1 (isSome_get?_afterWrites_iff.2 hs)
    have last := get?_afterWrites_eq_some_iff.1 found
    rwa [get, found]
  unwritten slot hs := by
    have absent : (afterWrites writes).get? slot = none := by
      simpa using mt isSome_get?_afterWrites_iff.1 hs
    rw [get, absent]
    rfl
  size := size_afterWrites writes
  isEmpty := isEmpty_afterWrites_iff
  distinct := nodup_slots _
  listed slot value := get?_eq_some_iff_mem.symm.trans get?_afterWrites_eq_some_iff
  found slot value := get?_afterWrites_eq_some_iff

/-- After any writes a frame holds the last one to each slot, whatever the order
of writes to different slots was. -/
theorem last_write_wins (writes : List (Word × Cell)) :
    (afterWrites writes).HoldsLast writes ∧
      ∀ other, Reorders other writes → afterWrites other = afterWrites writes :=
  ⟨holdsLast_afterWrites writes, fun _ => afterWrites_of_reorders⟩

def interleaved : List (Word × Cell) := [(3, .ofWord 7), (-1, 0), (3, .ofWord 2)]

def grouped : List (Word × Cell) := [(-1, 0), (3, .ofWord 7), (3, .ofWord 2)]

theorem interleaved_answers :
    Reorders grouped interleaved ∧ afterWrites grouped = afterWrites interleaved ∧
      (afterWrites interleaved).get? 3 = some (.ofWord 2) ∧
      (-1, 0) ∈ (afterWrites interleaved).toList ∧ (afterWrites interleaved).size = 2 ∧
      (afterWrites interleaved).get 4 = 0 := by
  obtain ⟨holds, reordered⟩ := last_write_wins interleaved
  have sameOrder : Reorders grouped interleaved := by
    intro slot
    by_cases first : (3 : Word) = slot
    · subst first
      rfl
    · by_cases second : (-1 : Word) = slot <;> simp [grouped, interleaved, first, second]
  have last : LastWrite interleaved 3 (.ofWord 2) := ⟨[_, _], [], rfl, by simp⟩
  have only : LastWrite interleaved (-1) 0 := ⟨[_], [_], rfl, by simp⟩
  exact ⟨sameOrder, reordered grouped sameOrder, (holds.found 3 _).2 last,
    (holds.listed (-1) 0).2 only, holds.size, holds.unwritten 4 (by decide)⟩

end StackMachine.Frame
