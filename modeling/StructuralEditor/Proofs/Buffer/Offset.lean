import Mathlib.Data.String.Basic
import StructuralEditor.Buffer.Basic

/-!
# Positions, characters and bytes

A position of a text stands for a number of characters before it, and that for a number of bytes.

* `Position.lt_after` : reading a text that is not empty leads to a later position;
* `indexOf?_eq_some_iff` : the index of a position is the number of characters that lead to it;
* `utf8Len_take_le_iff`, `extract_take` : beginnings of a text and the bytes they take;
* `Buffer.index?_eq_ok_iff`, `Buffer.offset_eq_ok_iff` : indices and offsets of the positions of a buffer;
* `Buffer.index_le_index_iff` : indices keep document order.
-/

namespace StructuralEditor

theorem take_eq_append {α : Type} (text : List α) {i j : Nat} (hij : i ≤ j) :
    text.take j = text.take i ++ (text.take j).drop i := by
  have hi : text.take i = (text.take j).take i := by
    rw [List.take_take, Nat.min_eq_left hij]
  rw [hi, List.take_append_drop]

namespace Position

theorem lt_irrefl (p : Position) : ¬ p < p := by
  simp only [lt_def]; omega

theorem lt_of_lt_of_le {p q r : Position} (h : p < q) (h' : q ≤ r) : p < r := by
  simp only [lt_def, le_def] at *; omega

theorem le_of_lt {p q : Position} (h : p < q) : p ≤ q := by
  simp only [lt_def, le_def] at *; omega

theorem lt_advance (p : Position) (c : Char) : p < p.advance c := by
  unfold advance
  split <;> simp [lt_def]

theorem le_after (p : Position) (text : List Char) : p ≤ p.after text := by
  induction text generalizing p with
  | nil => exact le_refl p
  | cons c rest ih => exact le_of_lt (lt_of_lt_of_le (lt_advance p c) (ih _))

theorem lt_after (p : Position) {text : List Char} (h : text ≠ []) : p < p.after text := by
  cases text with
  | nil => exact absurd rfl h
  | cons c rest => exact lt_of_lt_of_le (lt_advance p c) (le_after _ rest)

theorem after_eq_self_iff {p : Position} {text : List Char} : p.after text = p ↔ text = [] := by
  constructor
  · intro h
    by_contra hne
    have hlt := lt_after p hne
    rw [h] at hlt
    exact lt_irrefl p hlt
  · rintro rfl
    rfl

/-- The positions reached by longer and longer beginnings of a text are further and further on. -/
theorem after_take_lt_after_take (p : Position) {text : List Char} {i j : Nat} (hij : i < j)
    (hj : j ≤ text.length) : p.after (text.take i) < p.after (text.take j) := by
  rw [take_eq_append text (Nat.le_of_lt hij), after_append]
  refine lt_after _ fun h => ?_
  have := congrArg List.length h
  simp only [List.length_drop, List.length_take, List.length_nil] at this
  omega

theorem after_take_le_iff (p : Position) {text : List Char} {i j : Nat} (hi : i ≤ text.length)
    (hj : j ≤ text.length) : p.after (text.take i) ≤ p.after (text.take j) ↔ i ≤ j := by
  constructor
  · intro h
    by_contra hlt
    have := after_take_lt_after_take p (Nat.lt_of_not_le hlt) hi
    exact lt_irrefl _ (lt_of_lt_of_le this h)
  · intro h
    rcases Nat.lt_or_eq_of_le h with h | rfl
    · exact le_of_lt (after_take_lt_after_take p h hj)
    · exact le_refl _

/-- The position `line` lines below this one; on the same line, `column` characters further on. -/
def down (p : Position) (line column : Nat) : Position :=
  if line = 0 then ⟨p.line, p.column + column⟩ else ⟨p.line + line, column⟩

theorem down_zero (p : Position) (column : Nat) : p.down 0 column = ⟨p.line, p.column + column⟩ := rfl

theorem down_eq_self_iff {p : Position} {line column : Nat} :
    p.down line column = p ↔ line = 0 ∧ column = 0 := by
  obtain ⟨l, c⟩ := p
  cases line <;> simp [down]

theorem down_advance (p : Position) (c : Char) (line column : Nat) :
    (p.advance c).down (if c = '\n' then line else line + 1) column = p.down (line + 1) column := by
  by_cases hc : c = '\n'
  · cases line with
    | zero => simp [down, advance, hc]
    | succ line =>
      simp only [down, advance, hc, if_true]
      simp
      omega
  · simp [down, advance, hc]

theorem down_advance_of_ne (p : Position) {c : Char} (hc : c ≠ '\n') (column : Nat) :
    (p.advance c).down 0 column = p.down 0 (column + 1) := by
  simp [down, advance, hc, Nat.add_comm, Nat.add_left_comm]

/-- No beginning of a text leads from behind a newline back to the line of the newline. -/
theorem after_advance_newline_ne (p : Position) (text : List Char) (column : Nat) :
    (p.advance '\n').after text ≠ p.down 0 column := by
  intro h
  have hle := le_after (p.advance '\n') text
  rw [h] at hle
  simp only [down_zero, advance, if_true, le_def] at hle
  omega

theorem after_take_cons_eq_iff {p q : Position} (h : q ≠ p) (c : Char) (rest : List Char) (i : Nat) :
    i ≤ (c :: rest).length ∧ p.after ((c :: rest).take i) = q ↔
      ∃ k, (k ≤ rest.length ∧ (p.advance c).after (rest.take k) = q) ∧ k + 1 = i := by
  cases i with
  | zero => simp [h.symm]
  | succ i => simp [after_cons]

end Position

/-! ## Indices -/

/-- Read at any position, the characters before a line and column lead to that line and column. -/
theorem indexOf?_eq_some_iff_down (text : List Char) (p : Position) (line column i : Nat) :
    indexOf? text line column = some i ↔ i ≤ text.length ∧ p.after (text.take i) = p.down line column := by
  fun_induction indexOf? text line column generalizing p i with
  | case1 text =>
    rw [Position.down_zero]
    constructor
    · intro h
      cases h
      exact ⟨Nat.zero_le _, rfl⟩
    · rintro ⟨hi, h⟩
      have hnil := Position.after_eq_self_iff.mp h
      have := congrArg List.length hnil
      simp only [List.length_take, List.length_nil] at this
      exact congrArg some (by omega)
  | case2 line column h0 =>
    constructor
    · intro h
      cases h
    · rintro ⟨hi, h⟩
      rw [List.take_nil, Position.after_nil, eq_comm, Position.down_eq_self_iff] at h
      exact absurd h.2 (h0 h.1)
  | case3 rest column =>
    rw [Position.after_take_cons_eq_iff (by simp [Position.down_eq_self_iff])]
    simp [Position.after_advance_newline_ne]
  | case4 c rest column hc ih =>
    rw [Option.map_eq_some_iff, Position.after_take_cons_eq_iff (by simp [Position.down_eq_self_iff]),
      ← Position.down_advance_of_ne p hc]
    exact exists_congr fun k => and_congr_left' (ih (p.advance c) k)
  | case5 c rest line column ih =>
    rw [Option.map_eq_some_iff, Position.after_take_cons_eq_iff (by simp [Position.down_eq_self_iff]),
      ← Position.down_advance p c]
    exact exists_congr fun k => and_congr_left' (ih (p.advance c) k)

theorem indexOf?_eq_some_iff {text : List Char} {p : Position} {i : Nat} :
    indexOf? text p.line p.column = some i ↔ i ≤ text.length ∧ Position.zero.after (text.take i) = p := by
  rw [indexOf?_eq_some_iff_down text Position.zero]
  have : Position.zero.down p.line p.column = p := by
    obtain ⟨l, c⟩ := p
    cases l <;> simp [Position.down, Position.zero]
  rw [this]

/-! ## Bytes -/

theorem utf8Len_take_lt {text : List Char} {i j : Nat} (hij : i < j) (hj : j ≤ text.length) :
    String.utf8Len (text.take i) < String.utf8Len (text.take j) := by
  have hpos : String.utf8Len ((text.take j).drop i) ≠ 0 := by
    rw [Ne, String.utf8Len_eq_zero]
    intro h
    have := congrArg List.length h
    simp only [List.length_drop, List.length_take, List.length_nil] at this
    omega
  rw [take_eq_append text (Nat.le_of_lt hij), String.utf8Len_append]
  omega

theorem utf8Len_take_le_iff {text : List Char} {i j : Nat} (hi : i ≤ text.length) (hj : j ≤ text.length) :
    String.utf8Len (text.take i) ≤ String.utf8Len (text.take j) ↔ i ≤ j := by
  constructor
  · intro h
    by_contra hlt
    have := utf8Len_take_lt (Nat.lt_of_not_le hlt) hi
    omega
  · intro h
    rcases Nat.lt_or_eq_of_le h with h | rfl
    · exact Nat.le_of_lt (utf8Len_take_lt h hj)
    · exact Nat.le_refl _

/-- The characters of a text from the `i`-th to the `j`-th, by the bytes before them. -/
theorem extract_take (text : List Char) {i j : Nat} (hij : i ≤ j) :
    String.Pos.Raw.extract (String.ofList text) ⟨String.utf8Len (text.take i)⟩
        ⟨String.utf8Len (text.take j)⟩ = String.ofList ((text.take j).drop i) := by
  have hj : String.utf8Len (text.take j) =
      String.utf8Len (text.take i) + String.utf8Len ((text.take j).drop i) := by
    rw [← String.utf8Len_append, ← take_eq_append text hij]
  have htext : text = text.take i ++ (text.take j).drop i ++ text.drop j := by
    rw [← take_eq_append text hij, List.take_append_drop]
  have h := String.extract_of_valid (text.take i) ((text.take j).drop i) (text.drop j)
  rwa [← htext, ← hj] at h

/-! ## Buffers -/

namespace Buffer

variable {b : Buffer} {p q : Position} {i j : Nat}

theorem index?_eq_ok_iff :
    b.index? p = .ok i ↔ i ≤ b.chars.length ∧ Position.zero.after (b.chars.take i) = p := by
  rw [← indexOf?_eq_some_iff, index?]
  split
  · next k hk => simp [hk]
  · next hk => simp [hk]

theorem offset_of_index? (h : b.index? p = .ok i) :
    b.offset p = .ok (String.utf8Len (b.chars.take i)) := by
  rw [offset, h, ← String.utf8ByteSize_ofList]
  rfl

theorem offset_eq_ok_iff {n : Nat} :
    b.offset p = .ok n ↔ ∃ i, b.index? p = .ok i ∧ String.utf8Len (b.chars.take i) = n := by
  constructor
  · intro h
    cases hi : b.index? p with
    | error e =>
      rw [offset, hi] at h
      cases h
    | ok i =>
      rw [offset_of_index? hi] at h
      exact ⟨i, rfl, Except.ok.inj h⟩
  · rintro ⟨i, hi, rfl⟩
    exact offset_of_index? hi

theorem index_le_index_iff (hp : b.index? p = .ok i) (hq : b.index? q = .ok j) : p ≤ q ↔ i ≤ j := by
  obtain ⟨hi, rfl⟩ := index?_eq_ok_iff.mp hp
  obtain ⟨hj, rfl⟩ := index?_eq_ok_iff.mp hq
  exact Position.after_take_le_iff _ hi hj

end Buffer

end StructuralEditor
