import Mathlib
import StackMachine.Listing
import StackMachine.Text.Tokens

/-!
# Listings as text

The lines of the text of a listing are the texts of its lines
(`lines_listing`), and each of them can be taken apart again: only the marked
one starts with the mark, the item follows the first bracket that closes, and
its tokens are told apart by one space.
-/

namespace StackMachine

namespace Text

-- ---------------------------------------------------------------------------
-- Visible characters
-- ---------------------------------------------------------------------------

/-- The visible ASCII characters. Mnemonics, numbers and notes consist of these. -/
def isGraphic (c : Char) : Bool := 0x21 ≤ c.toNat && c.toNat ≤ 0x7E

variable {c : Char}

theorem isGraphic_iff : isGraphic c = true ↔ 0x21 ≤ c.toNat ∧ c.toNat ≤ 0x7E := by
  simp [isGraphic]

theorem isGraphic_of_isDigit (h : c.isDigit = true) : isGraphic c = true := by
  have bounds : 0x30 ≤ c.toNat ∧ c.toNat ≤ 0x39 := by
    simpa [Char.isDigit, UInt32.le_iff_toNat_le] using h
  exact isGraphic_iff.2 (by omega)

theorem isGraphic_of_isUpper (h : c.isUpper = true) : isGraphic c = true := by
  have bounds : 0x41 ≤ c.toNat ∧ c.toNat ≤ 0x5A := by
    simpa [Char.isUpper, UInt32.le_iff_toNat_le] using h
  exact isGraphic_iff.2 (by omega)

theorem isBlank_of_isGraphic (h : isGraphic c = true) : isBlank c = false := by
  have bounds := isGraphic_iff.1 h
  rw [← Bool.not_eq_true]
  intro blank
  simp only [isBlank, blankRanges, List.any_cons, List.any_nil, Bool.or_eq_true, Bool.and_eq_true,
    decide_eq_true_eq, Bool.false_eq_true, or_false] at blank
  omega

def IsToken (text : String) : Prop := text ≠ "" ∧ ∀ c ∈ text.toList, isGraphic c = true

theorem isToken_of_all {text : String} (hne : text ≠ "")
    (h : text.toList.all isGraphic = true) : IsToken text := ⟨hne, List.all_eq_true.1 h⟩

theorem IsToken.newline {text : String} (h : IsToken text) : '\n' ∉ text.toList :=
  fun hc => absurd (h.2 _ hc) (by decide)

theorem tokens_single {text : String} (h : IsToken text) : tokens text = [text] := by
  have hne : text.toList ≠ [] := by simpa using h.1
  simp [tokens, runs_eq_self hne fun c hc => isBlank_of_isGraphic (h.2 c hc)]

theorem tokens_pair {first second : String} (hfirst : IsToken first) (hsecond : IsToken second) :
    tokens (first ++ " " ++ second) = [first, second] := by
  have hne : first.toList ≠ [] := by simpa using hfirst.1
  have hends : EndsRun (' ' :: second.toList) := by
    intro c hc
    cases hc
    decide
  have hruns : runs (first ++ " " ++ second).toList = first.toList :: runs second.toList := by
    have split : (first ++ " " ++ second).toList = first.toList ++ ' ' :: second.toList := by
      simp
    rw [split, runs_append hne (fun c hc => isBlank_of_isGraphic (hfirst.2 c hc)) hends,
      runs_cons_of_isBlank (by decide)]
  have htokens := tokens_single hsecond
  unfold tokens at htokens ⊢
  rw [hruns, List.map_cons, htokens, String.ofList_toList]

theorem append_ne_append {first second x y : String}
    (differ : (first.toList.zip second.toList).any (fun (c, d) => c ≠ d) = true) :
    first ++ x ≠ second ++ y := by
  rw [ne_eq, ← String.toList_inj, String.toList_append, String.toList_append]
  generalize first.toList = a, second.toList = b at differ
  induction a generalizing b with
  | nil => simp at differ
  | cons c a ih =>
    cases b with
    | nil => simp at differ
    | cons d b =>
      intro same
      obtain ⟨rfl, rest⟩ := List.cons.inj same
      exact ih b (by simpa using differ) rest

-- ---------------------------------------------------------------------------
-- Lines
-- ---------------------------------------------------------------------------

/-- The lines of a text that continues `line`, given last character first. At
the end of a text, no line is left open by a line break. -/
def gatherLines (line : List Char) : List Char → List (List Char)
  | [] => closeRun line []
  | c :: rest => if c = '\n' then line.reverse :: gatherLines [] rest else gatherLines (c :: line) rest

def lines (text : String) : List String := (gatherLines [] text.toList).map String.ofList

theorem gatherLines_append {more : List Char} (h : '\n' ∉ more) (line rest : List Char) :
    gatherLines line (more ++ rest) = gatherLines (more.reverse ++ line) rest := by
  induction more generalizing line with
  | nil => rfl
  | cons c more ih =>
    have hc : c ≠ '\n' := fun hc => h (hc ▸ List.mem_cons_self)
    have hmore : '\n' ∉ more := fun hm => h (List.mem_cons_of_mem _ hm)
    simp [gatherLines, hc, ih hmore]

theorem lines_join {texts : List String} (h : ∀ text ∈ texts, '\n' ∉ text.toList) :
    lines (String.join (texts.map (· ++ "\n"))) = texts := by
  induction texts with
  | nil => rfl
  | cons text texts ih =>
    have ih := ih fun other ho => h other (List.mem_cons_of_mem _ ho)
    have split : (String.join ((text :: texts).map (· ++ "\n"))).toList =
        text.toList ++ '\n' :: (String.join (texts.map (· ++ "\n"))).toList := by
      simp
    unfold lines at ih ⊢
    rw [split, gatherLines_append (h text List.mem_cons_self), gatherLines]
    simpa using ih

-- ---------------------------------------------------------------------------
-- Entries
-- ---------------------------------------------------------------------------

def afterBracket : List Char → List Char
  | [] => []
  | ']' :: ' ' :: rest => rest
  | _ :: rest => afterBracket rest

theorem afterBracket_append {front : List Char} (h : ']' ∉ front) (rest : List Char) :
    afterBracket (front ++ ']' :: ' ' :: rest) = rest := by
  induction front with
  | nil => rfl
  | cons c front ih =>
    have hc : c ≠ ']' := fun hc => h (hc ▸ List.mem_cons_self)
    have hfront : ']' ∉ front := fun hf => h (List.mem_cons_of_mem _ hf)
    rw [List.cons_append, afterBracket]
    · exact ih hfront
    · rintro _ rfl
      exact fun _ => hc rfl

def entry (line : String) : String := String.ofList (afterBracket line.toList)

end Text

open Text

-- ---------------------------------------------------------------------------
-- Items
-- ---------------------------------------------------------------------------

theorem Opcode.isUpper_of_mem_mnemonic (op : Opcode) {c : Char} (h : c ∈ op.mnemonic.toList) :
    c.isUpper = true := by
  have upper : ∀ op ∈ table, op.mnemonic.toList.all Char.isUpper = true := by decide
  exact List.all_eq_true.1 (upper op op.mem_table) c h

theorem Opcode.isToken_mnemonic (op : Opcode) : IsToken op.mnemonic := by
  have nonempty : ∀ op ∈ table, op.mnemonic ≠ "" := by decide
  exact ⟨nonempty op op.mem_table, fun c h => isGraphic_of_isUpper (op.isUpper_of_mem_mnemonic h)⟩

theorem Word.mem_toDecimal {w : Word} {c : Char} (h : c ∈ w.toDecimal.toList) :
    c.isDigit = true ∨ c = '-' := by
  rw [toDecimal, String.toList_ofList] at h
  cases hi : w.toInt with
  | ofNat n =>
    rw [hi] at h
    exact .inl (Decimal.isDigit_of_mem_ofNat h)
  | negSucc n =>
    rw [hi] at h
    rcases List.mem_cons.1 h with h | h
    · exact .inr h
    · exact .inl (Decimal.isDigit_of_mem_ofNat h)

theorem Word.isToken_toDecimal (w : Word) : IsToken w.toDecimal := by
  refine ⟨fun h => ?_, fun c hc => ?_⟩
  · have hw := w.ofDecimal?_toDecimal
    rw [h] at hw
    cases hw
  · rcases mem_toDecimal hc with hc | rfl
    · exact isGraphic_of_isDigit hc
    · decide

theorem Word.toDecimal_injective : Function.Injective toDecimal := by
  intro v w same
  have read : some v = some w := by
    rw [← ofDecimal?_toDecimal, same, ofDecimal?_toDecimal]
  exact Option.some.inj read

/-- A number ends where something follows that is neither a digit nor a sign. -/
theorem Word.toDecimal_append_inj {v w : Word} {sep rest rest' : List Char}
    (ends : sep.head?.any (fun c => !c.isDigit && c ≠ '-') = true)
    (h : v.toDecimal.toList ++ (sep ++ rest) = w.toDecimal.toList ++ (sep ++ rest')) :
    v = w ∧ rest = rest' := by
  have taken : ∀ (u : Word) (behind : List Char),
      (u.toDecimal.toList ++ (sep ++ behind)).takeWhile (fun c => c.isDigit || c = '-') =
        u.toDecimal.toList := by
    intro u behind
    rw [List.takeWhile_append_of_pos fun c hc => by simpa using mem_toDecimal hc]
    cases sep with
    | nil => simp at ends
    | cons c sep =>
      have outside : (c.isDigit || decide (c = '-')) = false := by simpa using ends
      simp [outside]
  obtain rfl : v = w := by
    apply toDecimal_injective
    rw [← String.toList_inj, ← taken v rest, h, taken w rest']
  exact ⟨rfl, List.append_cancel_left (List.append_cancel_left h)⟩

namespace Item

def tokens : Item → List String
  | .instr (.plain op) => [op.mnemonic]
  | .instr (.operand op value) => [op.mnemonic, value.toDecimal]
  | .truncated op => [op.mnemonic, "<missing>"]
  | .unknown w => ["??", w.toDecimal]

theorem isToken_of_mem_tokens {item : Item} {token : String} (h : token ∈ item.tokens) :
    IsToken token := by
  have note : IsToken "<missing>" := isToken_of_all (by decide) (by decide)
  have mark : IsToken "??" := isToken_of_all (by decide) (by decide)
  rcases item with (op | ⟨op, value⟩) | op | w <;>
    simp only [tokens, List.mem_cons, List.not_mem_nil, or_false] at h
  · subst h
    exact Opcode.isToken_mnemonic (.plain op)
  · rcases h with rfl | rfl
    · exact Opcode.isToken_mnemonic (.operand op)
    · exact value.isToken_toDecimal
  · rcases h with rfl | rfl
    · exact Opcode.isToken_mnemonic (.operand op)
    · exact note
  · rcases h with rfl | rfl
    · exact mark
    · exact w.isToken_toDecimal

theorem text_eq (item : Item) :
    (∃ token, item.tokens = [token] ∧ item.text = token) ∨
      ∃ first second, item.tokens = [first, second] ∧ item.text = first ++ " " ++ second := by
  rcases item with (op | ⟨op, value⟩) | op | w
  · exact .inl ⟨_, rfl, rfl⟩
  · exact .inr ⟨_, _, rfl, rfl⟩
  · exact .inr ⟨_, _, rfl, by simp [text, String.append_assoc]⟩
  · exact .inr ⟨_, _, rfl, by simp [text]⟩

@[simp] theorem tokens_text (item : Item) : Text.tokens item.text = item.tokens := by
  have graphic := @isToken_of_mem_tokens item
  rcases item.text_eq with ⟨token, hp, ht⟩ | ⟨first, second, hp, ht⟩
  · rw [ht, hp, tokens_single (graphic (by simp [hp]))]
  · rw [ht, hp, tokens_pair (graphic (by simp [hp])) (graphic (by simp [hp]))]

theorem newline_not_mem_text (item : Item) : '\n' ∉ item.text.toList := by
  have graphic := @isToken_of_mem_tokens item
  rcases item.text_eq with ⟨token, hp, ht⟩ | ⟨first, second, hp, ht⟩
  · rw [ht]
    exact (graphic (by simp [hp])).newline
  · have hfirst : '\n' ∉ first.toList := (graphic (by simp [hp])).newline
    have hsecond : '\n' ∉ second.toList := (graphic (by simp [hp])).newline
    simp [ht, hfirst, hsecond]

theorem text_of_instr (i : Instr) {c : Char} (h : c ∈ (Item.instr i).text.toList) :
    c.isUpper = true ∨ c.isDigit = true ∨ c = ' ' ∨ c = '-' := by
  cases i with
  | plain op => exact .inl (Opcode.isUpper_of_mem_mnemonic (.plain op) h)
  | operand op value =>
    simp only [text, String.toList_append, List.mem_append] at h
    rcases h with (h | h) | h
    · exact .inl (Opcode.isUpper_of_mem_mnemonic (.operand op) h)
    · exact .inr (.inr (.inl (List.mem_singleton.1 h)))
    · rcases Word.mem_toDecimal h with h | h
      · exact .inr (.inl h)
      · exact .inr (.inr (.inr h))

end Item

-- ---------------------------------------------------------------------------
-- Lines of a listing
-- ---------------------------------------------------------------------------

namespace Line

variable {mark : Option Word} {line : Line}

theorem isDigit_of_mem_padded {width n : Nat} {c : Char}
    (h : c ∈ Decimal.padded width (Decimal.ofNat n)) : c.isDigit = true := by
  rcases List.mem_append.1 h with h | h
  · rw [List.eq_of_mem_replicate h]
    decide
  · exact Decimal.isDigit_of_mem_ofNat h

theorem toList_text (mark : Option Word) (line : Line) :
    (line.text mark).toList =
      ((if line.isMarked mark then '>' else ' ') :: ' ' :: '[' ::
        Decimal.padded 4 (Decimal.ofNat line.index)) ++ ']' :: ' ' :: line.item.text.toList := by
  unfold text
  split <;> simp

theorem head_text (mark : Option Word) (line : Line) :
    (line.text mark).toList.head? = some '>' ↔ line.isMarked mark = true := by
  rw [toList_text]
  cases line.isMarked mark <;> simp

theorem newline_not_mem_text : '\n' ∉ (line.text mark).toList := by
  have digits : '\n' ∉ Decimal.padded 4 (Decimal.ofNat line.index) :=
    fun h => absurd (isDigit_of_mem_padded h) (by decide)
  have item := line.item.newline_not_mem_text
  rw [toList_text]
  split <;> simp [digits, item]

theorem entry_text (mark : Option Word) (line : Line) : entry (line.text mark) = line.item.text := by
  have digits : ']' ∉ Decimal.padded 4 (Decimal.ofNat line.index) :=
    fun h => absurd (isDigit_of_mem_padded h) (by decide)
  have front : ']' ∉ (if line.isMarked mark then '>' else ' ') :: ' ' :: '[' ::
      Decimal.padded 4 (Decimal.ofNat line.index) := by
    split <;> simp [digits]
  rw [entry, toList_text, afterBracket_append front, String.ofList_toList]

end Line

/-- A listing is read line by line as it was put together. -/
theorem Program.lines_listing (p : Program) (mark : Option Word) :
    Text.lines (p.listing mark) = p.lines.map (·.text mark) := by
  have joined : p.listing mark = String.join ((p.lines.map (·.text mark)).map (· ++ "\n")) := by
    simp [listing, Function.comp_def]
  rw [joined, lines_join]
  intro text h
  obtain ⟨line, -, rfl⟩ := List.mem_map.1 h
  exact Line.newline_not_mem_text

end StackMachine
