import Mathlib.Data.List.Induction
import StructuralEditor.Proofs.Buffer.Batch

/-!
# Positions and boundaries of characters

The positions of a text and the boundaries of its characters are the same places, by line and column and by bytes.

* `Position.zero_after` : the position behind a text is its number of newlines, and of characters since the last one;
* `Buffer.lines`, `Buffer.exists_offset_iff` : a position stands on one of the lines, at most at its end;
* `Buffer.positionAt`, `Buffer.offset_eq_ok_iff_isValid` : the position of a boundary, which has that offset;
* `Buffer.offset_lt_offset_iff` : offsets keep document order;
* `Buffer.Addressed`, `Buffer.addressed` : so it is for every text.
-/

namespace StructuralEditor

/-! ## Lines -/

theorem Position.zero_after (text : List Char) :
    zero.after text = ⟨text.count '\n', (text.reverse.takeWhile (· ≠ '\n')).length⟩ := by
  induction text using List.reverseRecOn with
  | nil => rfl
  | append_singleton text c ih =>
    rw [after_append, ih, after_cons, after_nil, advance, List.count_append, List.reverse_append]
    by_cases hc : c = '\n' <;> simp [hc]

/-- Reading a text leads as far down, and along the last line, as reading it at the start. -/
theorem Position.after_eq_down (p : Position) (text : List Char) :
    p.after text = p.down (zero.after text).line (zero.after text).column := by
  induction text using List.reverseRecOn with
  | nil => rfl
  | append_singleton text c ih =>
    rw [after_append, after_append, ih]
    simp only [after_cons, after_nil, advance, down]
    by_cases hc : c = '\n' <;> by_cases hline : (zero.after text).line = 0 <;> simp [hc, hline]
    all_goals omega

theorem splitOn_newline (text : List Char) : ('\n' :: text).splitOn '\n' = [] :: text.splitOn '\n' := by
  rw [List.splitOn_cons_eq_if_modifyHead, if_pos (beq_self_eq_true _)]

theorem splitOn_cons {c : Char} (hc : c ≠ '\n') (text : List Char) :
    (c :: text).splitOn '\n' = (text.splitOn '\n').modifyHead (c :: ·) := by
  rw [List.splitOn_cons_eq_if_modifyHead, if_neg (by simpa using hc)]

theorem length_splitOn (text : List Char) : (text.splitOn '\n').length = text.count '\n' + 1 := by
  induction text with
  | nil => rfl
  | cons c text ih =>
    by_cases hc : c = '\n'
    · subst hc
      rw [splitOn_newline, List.length_cons, ih, List.count_cons_self]
    · rw [splitOn_cons hc, List.length_modifyHead, ih, List.count_cons_of_ne hc]

/-- A line and column are found in a text if it has such a line, and that is long enough. -/
theorem exists_indexOf?_iff (text : List Char) (line column : Nat) :
    (∃ i, indexOf? text line column = some i) ↔
      ∃ found, (text.splitOn '\n')[line]? = some found ∧ column ≤ found.length := by
  rw [← Option.isSome_iff_exists]
  fun_induction indexOf? text line column with
  | case1 text =>
    obtain ⟨first, others, hsplit⟩ := List.exists_cons_of_ne_nil (List.splitOn_ne_nil '\n' text)
    simp [hsplit]
  | case2 line column h0 =>
    cases line with
    | zero => simpa [List.splitOn_nil, Nat.le_zero] using h0 rfl
    | succ line => simp [List.splitOn_nil]
  | case3 rest column => simp [splitOn_newline]
  | case4 c rest column hc ih =>
    rw [Option.isSome_map, ih, splitOn_cons hc, List.getElem?_modifyHead, if_pos rfl]
    simp
  | case5 c rest line column ih =>
    rw [Option.isSome_map, ih]
    by_cases hc : c = '\n'
    · subst hc
      rw [if_pos rfl, splitOn_newline, List.getElem?_cons_succ]
    · rw [if_neg hc, splitOn_cons hc, List.getElem?_modifyHead, if_neg (Nat.succ_ne_zero line)]

namespace Buffer

variable {b : Buffer} {p q : Position} {m n : Nat}

/-- The lines of the text, without the newlines between them. -/
def lines (b : Buffer) : List (List Char) := b.chars.splitOn '\n'

theorem exists_offset_iff :
    (∃ n, b.offset p = .ok n) ↔ ∃ line, b.lines[p.line]? = some line ∧ p.column ≤ line.length := by
  rw [lines, ← exists_indexOf?_iff]
  constructor
  · rintro ⟨n, hn⟩
    obtain ⟨i, hi, -⟩ := offset_eq_ok_iff.mp hn
    exact ⟨i, indexOf?_eq_some_iff.mpr (index?_eq_ok_iff.mp hi)⟩
  · rintro ⟨i, hi⟩
    exact ⟨_, offset_of_index? (index?_eq_ok_iff.mpr (indexOf?_eq_some_iff.mp hi))⟩

/-! ## Boundaries -/

/-- The position of an offset: the number of newlines before it, and that of characters since the last one. -/
def positionAt (b : Buffer) (n : Nat) : Position where
  line := (b.between 0 n).toList.count '\n'
  column := ((b.between 0 n).toList.reverse.takeWhile (· ≠ '\n')).length

theorem between_zero (b : Buffer) (i : Nat) :
    b.between 0 (String.utf8Len (b.chars.take i)) = String.ofList (b.chars.take i) := by
  rw [between, ← ofList_chars]
  exact extract_take b.chars (Nat.zero_le i)

theorem positionAt_take (b : Buffer) (i : Nat) :
    b.positionAt (String.utf8Len (b.chars.take i)) = Position.zero.after (b.chars.take i) := by
  rw [positionAt, between_zero, String.toList_ofList, Position.zero_after]

/-- The boundaries of the characters are the ends of the beginnings of the text. -/
theorem isValid_iff : String.Pos.Raw.IsValid b.text ⟨n⟩ ↔
    ∃ i ≤ b.chars.length, String.utf8Len (b.chars.take i) = n := by
  rw [← ofList_chars, String.Pos.Raw.isValid_ofList]
  constructor
  · rintro ⟨i, hi⟩
    refine ⟨min i b.chars.length, Nat.min_le_right _ _, ?_⟩
    rw [← List.take_eq_take_min, ← String.utf8ByteSize_ofList]
    exact hi.symm
  · rintro ⟨i, -, rfl⟩
    exact ⟨i, (String.utf8ByteSize_ofList _).symm⟩

theorem offset_eq_ok_iff_isValid : b.offset p = .ok n ↔ String.Pos.Raw.IsValid b.text ⟨n⟩ ∧ b.positionAt n = p := by
  rw [offset_eq_ok_iff, isValid_iff]
  constructor
  · rintro ⟨i, hi, rfl⟩
    obtain ⟨hle, hp⟩ := index?_eq_ok_iff.mp hi
    exact ⟨⟨i, hle, rfl⟩, (positionAt_take b i).trans hp⟩
  · rintro ⟨⟨i, hle, rfl⟩, rfl⟩
    exact ⟨i, index?_eq_ok_iff.mpr ⟨hle, (positionAt_take b i).symm⟩, rfl⟩

theorem offset_le_offset_iff (hp : b.offset p = .ok m) (hq : b.offset q = .ok n) : p ≤ q ↔ m ≤ n := by
  obtain ⟨i, hi, rfl⟩ := offset_eq_ok_iff.mp hp
  obtain ⟨j, hj, rfl⟩ := offset_eq_ok_iff.mp hq
  rw [index_le_index_iff hi hj]
  exact (utf8Len_take_le_iff (index?_eq_ok_iff.mp hi).1 (index?_eq_ok_iff.mp hj).1).symm

theorem offset_lt_offset_iff (hp : b.offset p = .ok m) (hq : b.offset q = .ok n) : p < q ↔ m < n := by
  rw [← Nat.not_le, ← offset_le_offset_iff hq hp, ← Position.not_lt, not_not]

/-! ## The end -/

theorem index?_finish (b : Buffer) : b.index? b.finish = .ok b.chars.length :=
  index?_after (List.append_nil b.chars).symm

theorem offset_finish (b : Buffer) : b.offset b.finish = .ok b.text.utf8ByteSize := by
  rw [offset_of_index? b.index?_finish, List.take_length, ← String.utf8ByteSize_ofList, ofList_chars]

theorem le_finish (hp : b.offset p = .ok n) : p ≤ b.finish := by
  obtain ⟨i, hi, -⟩ := offset_eq_ok_iff.mp hp
  exact (index_le_index_iff hi b.index?_finish).mpr (index?_eq_ok_iff.mp hi).1

/-! ## Stretches -/

theorem slice_of_offset (hp : b.offset p = .ok m) (hq : b.offset q = .ok n) (hle : p ≤ q) :
    slice? b.text m n = some (b.between m n) ∧ b.slice p q = .ok (b.between m n) := by
  obtain ⟨i, hi, rfl⟩ := offset_eq_ok_iff.mp hp
  obtain ⟨j, hj, rfl⟩ := offset_eq_ok_iff.mp hq
  have hij := (index_le_index_iff hi hj).mp hle
  have hbetween : b.between (String.utf8Len (b.chars.take i)) (String.utf8Len (b.chars.take j)) =
      String.ofList ((b.chars.take j).drop i) := by
    rw [between, ← ofList_chars]
    exact extract_take b.chars hij
  have hslice := slice?_take hij (index?_eq_ok_iff.mp hj).1
  rw [ofList_chars, ← hbetween] at hslice
  refine ⟨hslice, ?_⟩
  rw [slice, if_pos hle, hi, hj, hbetween]
  rfl

/-- Positions and boundaries of characters are the same places, in the same order. -/
structure Addressed (b : Buffer) : Prop where
  lineCount : b.lineCount = b.lines.length
  located : ∀ p, (∃ n, b.offset p = .ok n) ↔ ∃ line, b.lines[p.line]? = some line ∧ p.column ≤ line.length
  boundary : ∀ p n, b.offset p = .ok n ↔ String.Pos.Raw.IsValid b.text ⟨n⟩ ∧ b.positionAt n = p
  increasing : ∀ p q m n, b.offset p = .ok m → b.offset q = .ok n → (p < q ↔ m < n)
  finish : b.offset b.finish = .ok b.text.utf8ByteSize
  greatest : ∀ p n, b.offset p = .ok n → p ≤ b.finish
  slice : ∀ p q m n, b.offset p = .ok m → b.offset q = .ok n → p ≤ q →
    slice? b.text m n = some (b.between m n) ∧ b.slice p q = .ok (b.between m n)
  /-- No coordinate goes beyond the limit if neither the number of lines nor the length of one does. -/
  limit : b.lines.length ≤ Text.limit32 → (∀ line ∈ b.lines, line.length ≤ Text.limit32) →
    ∀ p n, b.offset p = .ok n → p.line ≤ Text.limit32 ∧ p.column ≤ Text.limit32

/-- Every text is addressed by line and column as by bytes: exactly the positions on its lines have offsets, which are
the boundaries of its characters in order, and what stands between two of them can be read. -/
theorem addressed (b : Buffer) : b.Addressed where
  lineCount := (length_splitOn b.chars).symm
  located := fun _ => exists_offset_iff
  boundary := fun _ _ => offset_eq_ok_iff_isValid
  increasing := fun _ _ _ _ => offset_lt_offset_iff
  finish := b.offset_finish
  greatest := fun _ _ => le_finish
  slice := fun _ _ _ _ => slice_of_offset
  limit := by
    intro hcount hlength p n hp
    obtain ⟨line, hline, hcolumn⟩ := exists_offset_iff.mp ⟨n, hp⟩
    obtain ⟨hlt, -⟩ := List.getElem?_eq_some_iff.mp hline
    exact ⟨Nat.le_trans (Nat.le_of_lt hlt) hcount, Nat.le_trans hcolumn (hlength line (List.mem_of_getElem? hline))⟩

end Buffer

end StructuralEditor
