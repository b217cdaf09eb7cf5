import Mathlib
import StackMachine.Frame

/-!
# Frames as sequences of writes

The frame that a sequence of writes leaves behind holds in each slot the latest
cell written there, and is of the size of the set of slots written. Sequences
are given from the latest write to the first, as `List.lookup` reads them.
-/

namespace StackMachine.Frame

theorem isSome_get?_iff {f : Frame} {slot : Word} :
    (f.get? slot).isSome = true ↔ slot ∈ f.toList.map Prod.fst := by
  simp [get?, List.lookup_isSome_iff]

theorem nodup_slots (f : Frame) : (f.toList.map Prod.fst).Nodup :=
  (List.pairwise_map.2 f.sorted).imp Int64.ne_of_lt

theorem size_eq_card (f : Frame) : f.size = (f.toList.map Prod.fst).toFinset.card := by
  rw [List.toFinset_card_of_nodup f.nodup_slots, List.length_map, size]

def write (entry : Word × Cell) (f : Frame) : Frame := f.set entry.1 entry.2

def ofWrites (writes : List (Word × Cell)) : Frame := writes.foldr write .empty

theorem ofWrites_append (later earlier : List (Word × Cell)) :
    ofWrites (later ++ earlier) = later.foldr write (ofWrites earlier) :=
  List.foldr_append

variable (writes : List (Word × Cell))

theorem get?_ofWrites (slot : Word) : (ofWrites writes).get? slot = writes.lookup slot := by
  induction writes with
  | nil => rfl
  | cons entry rest ih =>
    obtain ⟨written, value⟩ := entry
    show ((ofWrites rest).set written value).get? slot = _
    rw [get?_set, ih, List.lookup_cons]
    by_cases h : slot = written
    · simp [h]
    · simp [h, beq_false_of_ne h]

theorem get_ofWrites (slot : Word) :
    (ofWrites writes).get slot = (writes.lookup slot).getD 0 := by
  rw [get, get?_ofWrites]

theorem isSome_get?_ofWrites_iff {slot : Word} :
    ((ofWrites writes).get? slot).isSome = true ↔ slot ∈ writes.map Prod.fst := by
  simp [get?_ofWrites, List.lookup_isSome_iff]

theorem size_ofWrites : (ofWrites writes).size = (writes.map Prod.fst).toFinset.card := by
  rw [size_eq_card]
  congr 1
  ext slot
  rw [List.mem_toFinset, List.mem_toFinset, ← isSome_get?_iff, isSome_get?_ofWrites_iff]

def Holds (f : Frame) (writes : List (Word × Cell)) : Prop :=
  (∀ slot, f.get slot = (writes.lookup slot).getD 0) ∧
    f.size = (writes.map Prod.fst).toFinset.card

theorem holds_ofWrites : (ofWrites writes).Holds writes :=
  ⟨get_ofWrites writes, size_ofWrites writes⟩

end StackMachine.Frame
