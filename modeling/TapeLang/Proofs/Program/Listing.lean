import Mathlib.Data.List.Sort
import TapeLang.Program.Listing

namespace TapeLang

theorem Instruction.char_inj {i j : Instruction} : i.char = j.char ↔ i = j := by
  constructor
  · intro h
    rw [← byte_inj, ← char_toUInt8, ← char_toUInt8, h]
  · exact congrArg char

/-- What follows the last line feed is no line. -/
def textLines (text : List Char) : List (List Char) :=
  (text.splitOn '\n').dropLast

theorem splitOn_flatMap {α : Type} {cut : α → List Char} {items : List α}
    (h : ∀ a ∈ items, '\n' ∉ cut a) :
    (items.flatMap fun a => cut a ++ ['\n']).splitOn '\n' = items.map cut ++ [[]] := by
  induction items with
  | nil => rfl
  | cons a items ih =>
      obtain ⟨ha, hitems⟩ := List.forall_mem_cons.1 h
      have hfree : ∀ c ∈ cut a, (c == '\n') = false := by
        intro c hc
        rw [beq_eq_false_iff_ne]
        rintro rfl
        exact ha hc
      rw [List.flatMap_cons, List.append_assoc, List.singleton_append, List.splitOn_eq_splitOnP,
        List.splitOnP_append_cons_of_forall_mem hfree '\n' rfl, ← List.splitOn_eq_splitOnP,
        ih hitems, List.map_cons, List.cons_append]

theorem textLines_flatMap {α : Type} {cut : α → List Char} {items : List α}
    (h : ∀ a ∈ items, '\n' ∉ cut a) :
    textLines (items.flatMap fun a => cut a ++ ['\n']) = items.map cut := by
  rw [textLines, splitOn_flatMap h, List.dropLast_concat]

/-- Nothing makes the character and the mnemonic of a line agree. -/
structure Reading where
  offset : Nat
  character : Char
  mnemonic : String
  deriving DecidableEq, Repr

namespace Reading

def skipSpaces (line : List Char) : List Char :=
  line.dropWhile (· = ' ')

def ofLine? (line : List Char) : Option Reading :=
  let field := skipSpaces line
  match field.takeWhile Char.isDigit, skipSpaces (field.dropWhile Char.isDigit) with
  | [], _ => none
  | _, [] => none
  | digit :: digits, character :: rest =>
      some ⟨Nat.ofDigitChars 10 (digit :: digits) 0, character, String.ofList (skipSpaces rest)⟩

def ofText? (text : String) : Option (List Reading) :=
  (textLines text.toList).mapM ofLine?

end Reading

namespace ListingLine

def Before (l l' : ListingLine) : Prop :=
  l.offset < l'.offset

instance : Std.Irrefl Before :=
  ⟨fun l => Nat.lt_irrefl l.offset⟩

instance : Std.Antisymm Before :=
  ⟨fun _ _ h h' => absurd h' (Nat.lt_asymm h)⟩

def reading (l : ListingLine) : Reading :=
  ⟨l.offset, l.instruction.char, l.instruction.mnemonic⟩

theorem reading_injective : Function.Injective reading := by
  rintro ⟨offset, i⟩ ⟨offset', i'⟩ h
  simp only [reading, Reading.mk.injEq, Instruction.char_inj] at h
  rw [h.1, h.2.1]

def fields (i : Instruction) : List Char :=
  [' ', ' ', i.char, ' ', ' '] ++ i.mnemonic.toList

def columns (l : ListingLine) : List Char :=
  List.leftpad 5 ' ' (Nat.toDigits 10 l.offset) ++ fields l.instruction

theorem text_eq (l : ListingLine) : l.text = l.columns ++ ['\n'] := by
  simp [text, columns, fields]

theorem lineFeed_not_mem_columns (l : ListingLine) : '\n' ∉ l.columns := by
  intro h
  rcases List.mem_append.1 h with h | h
  · rcases List.mem_append.1 h with h | h
    · exact absurd (List.eq_of_mem_replicate h) (by decide)
    · exact absurd (Nat.isDigit_of_mem_toDigits (by decide) (by decide) h) (by decide)
  · revert h
    cases l.instruction <;> decide

theorem skipSpaces_padded {n : Nat} {line : List Char} {c : Char} (hc : c ≠ ' ') :
    Reading.skipSpaces (List.replicate n ' ' ++ c :: line) = c :: line := by
  rw [Reading.skipSpaces, List.dropWhile_append_of_pos]
  · simp [hc]
  · intro d hd
    simp [List.eq_of_mem_replicate hd]

theorem skipSpaces_fields (i : Instruction) :
    Reading.skipSpaces (fields i) = i.char :: ' ' :: ' ' :: i.mnemonic.toList := by
  cases i <;> rfl

theorem skipSpaces_mnemonic (i : Instruction) :
    Reading.skipSpaces (' ' :: ' ' :: i.mnemonic.toList) = i.mnemonic.toList := by
  cases i <;> rfl

theorem ofLine?_columns (l : ListingLine) : Reading.ofLine? l.columns = some l.reading := by
  obtain ⟨offset, i⟩ := l
  have hdigit : ∀ c ∈ Nat.toDigits 10 offset, c.isDigit = true := fun c hc =>
    Nat.isDigit_of_mem_toDigits (by decide) (by decide) hc
  have hvalue : Nat.ofDigitChars 10 (Nat.toDigits 10 offset) 0 = offset :=
    Nat.ofDigitChars_ten_toDigits
  cases hd : Nat.toDigits 10 offset with
  | nil => exact absurd hd Nat.toDigits_ne_nil
  | cons digit digits =>
      rw [hd] at hdigit hvalue
      have hspace : digit ≠ ' ' := by
        rintro rfl
        exact absurd (hdigit ' ' List.mem_cons_self) (by decide)
      -- The number starts with no space, so the padding ends there, also where there is none.
      have hfield : Reading.skipSpaces (columns ⟨offset, i⟩) = digit :: digits ++ fields i := by
        rw [columns, hd, List.leftpad, List.append_assoc]
        exact skipSpaces_padded hspace
      have htake : (digit :: digits ++ fields i).takeWhile Char.isDigit = digit :: digits := by
        rw [List.takeWhile_append_of_pos hdigit]
        simp [fields]
      have hdrop : (digit :: digits ++ fields i).dropWhile Char.isDigit = fields i := by
        rw [List.dropWhile_append_of_pos hdigit]
        simp [fields]
      simp only [Reading.ofLine?, hfield, htake, hdrop, skipSpaces_fields, skipSpaces_mnemonic,
        hvalue, String.ofList_toList, reading]

end ListingLine

namespace Program

def instruction? (p : Program) (offset : Nat) : Option Instruction :=
  p.code[offset]?.bind Instruction.ofByte?

section

variable (offset : Nat) {b : UInt8} (rest : List UInt8)

@[simp]
theorem linesFrom_byte (i : Instruction) :
    linesFrom offset (i.byte :: rest) = ⟨offset, i⟩ :: linesFrom (offset + 1) rest := by
  simp [linesFrom]

theorem linesFrom_commentary (h : Instruction.ofByte? b = none) :
    linesFrom offset (b :: rest) = linesFrom (offset + 1) rest := by
  simp [linesFrom, h]

end

theorem mem_linesFrom {l : ListingLine} {offset : Nat} {bytes : List UInt8} :
    l ∈ linesFrom offset bytes ↔
      ∃ k, l.offset = offset + k ∧ bytes[k]?.bind Instruction.ofByte? = some l.instruction := by
  induction bytes generalizing offset with
  | nil => simp [linesFrom]
  | cons b rest ih =>
      have later : l ∈ linesFrom (offset + 1) rest ↔ ∃ k, l.offset = offset + (k + 1) ∧
          rest[k]?.bind Instruction.ofByte? = some l.instruction := by
        rw [ih]
        simp only [Nat.add_assoc, Nat.add_comm 1]
      rw [← Nat.or_exists_add_one]
      simp only [List.getElem?_cons_zero, List.getElem?_cons_succ, Option.bind_some, ← later]
      cases h : Instruction.ofByte? b with
      | none => simp [linesFrom, h]
      | some i =>
          obtain ⟨o, j⟩ := l
          simp [linesFrom, h, eq_comm]

theorem pairwise_linesFrom (offset : Nat) (bytes : List UInt8) :
    (linesFrom offset bytes).Pairwise ListingLine.Before := by
  induction bytes generalizing offset with
  | nil => exact .nil
  | cons b rest ih =>
      cases h : Instruction.ofByte? b with
      | none =>
          rw [linesFrom_commentary _ _ h]
          exact ih (offset + 1)
      | some i =>
          obtain rfl := Instruction.ofByte?_eq_some_iff.1 h
          rw [linesFrom_byte]
          refine .cons ?_ (ih (offset + 1))
          intro l hl
          obtain ⟨k, hk, -⟩ := mem_linesFrom.1 hl
          change offset < l.offset
          omega

theorem map_byte_linesFrom (offset : Nat) (bytes : List UInt8) :
    (linesFrom offset bytes).map (fun l => l.instruction.byte) = bytes.filter isInstruction := by
  induction bytes generalizing offset with
  | nil => rfl
  | cons b rest ih =>
      cases h : Instruction.ofByte? b with
      | none =>
          have hb : ¬ isInstruction b = true := by simp [isInstruction, h]
          rw [linesFrom_commentary _ _ h, ih, List.filter_cons_of_neg hb]
      | some i =>
          obtain rfl := Instruction.ofByte?_eq_some_iff.1 h
          rw [linesFrom_byte, List.map_cons, ih, List.filter_cons_of_pos (isInstruction_byte i)]

theorem linesFrom_append (offset : Nat) (bytes more : List UInt8) :
    linesFrom offset (bytes ++ more) =
      linesFrom offset bytes ++ linesFrom (offset + bytes.length) more := by
  induction bytes generalizing offset with
  | nil => rfl
  | cons b rest ih =>
      have hlength : offset + (b :: rest).length = offset + 1 + rest.length := by
        rw [List.length_cons]
        omega
      rw [List.cons_append, hlength]
      cases h : Instruction.ofByte? b with
      | none => rw [linesFrom_commentary _ _ h, linesFrom_commentary _ _ h, ih]
      | some i =>
          obtain rfl := Instruction.ofByte?_eq_some_iff.1 h
          rw [linesFrom_byte, linesFrom_byte, ih, List.cons_append]

theorem linesFrom_of_commentary {bytes : List UInt8} (h : ∀ b ∈ bytes, isInstruction b = false)
    (offset : Nat) : linesFrom offset bytes = [] := by
  rw [← List.length_eq_zero_iff, length_linesFrom, List.countP_eq_zero]
  intro b hb
  rw [h b hb]
  exact Bool.false_ne_true

variable {p q : Program}

theorem pairwise_lines (p : Program) : p.lines.Pairwise ListingLine.Before :=
  pairwise_linesFrom 0 p.toList

theorem mem_lines {l : ListingLine} :
    l ∈ p.lines ↔ p.instruction? l.offset = some l.instruction := by
  rw [lines, mem_linesFrom, instruction?, toList]
  simp

theorem textLines_listing (p : Program) :
    textLines p.listing.toList = p.lines.map ListingLine.columns := by
  rw [listing, String.toList_ofList, funext ListingLine.text_eq]
  exact textLines_flatMap fun l _ => l.lineFeed_not_mem_columns

theorem ofText?_listing (p : Program) :
    Reading.ofText? p.listing = some (p.lines.map ListingLine.reading) := by
  rw [Reading.ofText?, textLines_listing, List.mapM_map]
  simp only [Function.comp_def, ListingLine.ofLine?_columns]
  exact List.mapM_pure

theorem mem_map_reading_iff {r : Reading} :
    r ∈ p.lines.map ListingLine.reading ↔ ∃ i : Instruction, p.instruction? r.offset = some i ∧
      r.character = i.char ∧ r.mnemonic = i.mnemonic := by
  rw [List.mem_map]
  constructor
  · rintro ⟨l, hl, rfl⟩
    exact ⟨l.instruction, mem_lines.1 hl, rfl, rfl⟩
  · obtain ⟨offset, character, mnemonic⟩ := r
    rintro ⟨i, hi, rfl, rfl⟩
    exact ⟨⟨offset, i⟩, mem_lines.2 hi, rfl⟩

theorem lines_eq_iff :
    p.lines = q.lines ↔ ∀ offset, p.instruction? offset = q.instruction? offset := by
  constructor
  · intro h offset
    apply Option.ext
    intro i
    have hp : _ ↔ p.instruction? offset = some i := mem_lines (l := ⟨offset, i⟩)
    have hq : _ ↔ q.instruction? offset = some i := mem_lines (l := ⟨offset, i⟩)
    rw [← hp, ← hq, h]
  · intro h
    refine p.pairwise_lines.eq_of_mem_iff q.pairwise_lines fun l => ?_
    rw [mem_lines, mem_lines, h]

theorem listing_eq_iff :
    p.listing = q.listing ↔ ∀ offset, p.instruction? offset = q.instruction? offset := by
  rw [← lines_eq_iff]
  constructor
  · intro h
    have hread := p.ofText?_listing
    rw [h, ofText?_listing] at hread
    exact (List.map_injective_iff.2 ListingLine.reading_injective (Option.some.inj hread)).symm
  · intro h
    rw [listing, h, listing]

def fill (filler : Nat → UInt8) (tail : List UInt8) : (position : Nat) → List Reading → List UInt8
  | _, [] => tail
  | position, r :: rest =>
      (List.range' position (r.offset - position)).map filler ++
        r.character.toUInt8 :: fill filler tail (r.offset + 1) rest

def rebuild (filler : Nat → UInt8) (tail : List UInt8) (text : String) : Option Program :=
  (Reading.ofText? text).map fun read => ofList (fill filler tail 0 read)

section

variable {filler : Nat → UInt8} {tail : List UInt8}
  (hfiller : ∀ offset, isInstruction (filler offset) = false)
  (htail : ∀ b ∈ tail, isInstruction b = false)
include hfiller htail

theorem linesFrom_fill {position : Nat} {ls : List ListingLine}
    (hle : ∀ l ∈ ls, position ≤ l.offset)
    (hls : ls.Pairwise ListingLine.Before) :
    linesFrom position (fill filler tail position (ls.map ListingLine.reading)) = ls := by
  induction ls generalizing position with
  | nil => exact linesFrom_of_commentary htail position
  | cons l ls ih =>
      obtain ⟨hl, hrest⟩ := List.pairwise_cons.1 hls
      have hgap : ∀ b ∈ (List.range' position (l.offset - position)).map filler,
          isInstruction b = false := by
        intro b hb
        obtain ⟨offset, -, rfl⟩ := List.mem_map.1 hb
        exact hfiller offset
      have hposition := hle l List.mem_cons_self
      have hoffset : position + ((List.range' position (l.offset - position)).map filler).length =
          l.offset := by
        rw [List.length_map, List.length_range']
        omega
      rw [List.map_cons, fill, ListingLine.reading, linesFrom_append, hoffset,
        linesFrom_of_commentary hgap, List.nil_append, Instruction.char_toUInt8, linesFrom_byte,
        ih hl hrest]

theorem listing_rebuild (p : Program) :
    ∃ q, rebuild filler tail p.listing = some q ∧ q.listing = p.listing := by
  refine ⟨_, congrArg (Option.map _) p.ofText?_listing, ?_⟩
  rw [listing, lines, toList_ofList,
    linesFrom_fill hfiller htail (fun _ _ => Nat.zero_le _) p.pairwise_lines, listing]

end

end Program

end TapeLang
