import Mathlib.Data.List.TakeWhile
import StructuralEditor.Text.Blank
import StructuralEditor.Text.Decimal

/-!
# Pieces, trimmed texts and numerals

* `Text.pieces_eq_splitOn`, `Text.pieces_eq_iff` : the pieces of a text have no separator, and give the text when they
  are joined by it;
* `Text.Trims`, `Text.trim_eq_iff` : what stands between the blanks at the ends of a text;
* `Text.Numeral`, `Text.readDecimal_eq_ok_iff` : a sign that may be missing, digits, and a value within the limit;
* `Text.PaddedNumeral` : a numeral between blanks; `Text.paddedNumeral_toDigits` : the digits of a number are one.
-/

namespace StructuralEditor.Text

variable {separator : Char} {text core before behind digits : List Char} {limit value n : Nat}

/-! ## Pieces -/

theorem pieces_eq_splitOn (separator : Char) (text : List Char) : pieces separator text = text.splitOn separator := by
  induction text with
  | nil => rfl
  | cons c rest ih =>
    rw [pieces, List.splitOn_cons_eq_if_modifyHead, ih]
    simp only [beq_iff_eq]
    split
    · rfl
    · obtain ⟨first, others, hsplit⟩ := List.exists_cons_of_ne_nil (List.splitOn_ne_nil separator rest)
      rw [hsplit]
      rfl

theorem pieces_append (separator : Char) (text rest : List Char) :
    pieces separator (text ++ separator :: rest) = pieces separator text ++ pieces separator rest := by
  simp only [pieces_eq_splitOn]
  exact List.splitOn_append_cons_self text rest

theorem pieces_of_notMem (h : separator ∉ text) : pieces separator text = [text] := by
  rw [pieces_eq_splitOn]
  exact List.splitOn_eq_singleton h

theorem notMem_of_mem_pieces {part : List Char} (h : part ∈ pieces separator text) : separator ∉ part := by
  induction text generalizing part with
  | nil =>
    obtain rfl := List.mem_singleton.mp h
    exact List.not_mem_nil
  | cons c rest ih =>
    rw [pieces] at h
    split at h
    · rcases List.mem_cons.mp h with rfl | h
      · exact List.not_mem_nil
      · exact ih h
    · next hc =>
      obtain ⟨first, others, hpieces⟩ := List.exists_cons_of_ne_nil (pieces_ne_nil separator rest)
      rw [hpieces] at h ih
      rcases List.mem_cons.mp h with rfl | h
      · exact List.not_mem_cons_of_ne_of_not_mem (fun heq => hc heq.symm) (ih List.mem_cons_self)
      · exact ih (List.mem_cons_of_mem first h)

/-- The parts have no separator in them, there is at least one, and joined by the separator they are the text. -/
structure Parted (separator : Char) (text : List Char) (parts : List (List Char)) : Prop where
  joined : [separator].intercalate parts = text
  apart : ∀ part ∈ parts, separator ∉ part
  some : parts ≠ []

theorem pieces_eq_iff {parts : List (List Char)} : pieces separator text = parts ↔ Parted separator text parts := by
  constructor
  · rintro rfl
    refine ⟨?_, fun part => notMem_of_mem_pieces, pieces_ne_nil separator text⟩
    rw [pieces_eq_splitOn]
    exact List.intercalate_splitOn separator
  · rintro ⟨rfl, hapart, hsome⟩
    rw [pieces_eq_splitOn]
    exact List.splitOn_intercalate separator hapart hsome

theorem mem_intercalate_cases {parts : List (List Char)} {c : Char} (h : c ∈ [separator].intercalate parts) :
    c = separator ∨ ∃ part ∈ parts, c ∈ part := by
  induction parts with
  | nil => cases h
  | cons first others ih =>
    by_cases hnil : others = []
    · subst hnil
      rw [List.intercalate_singleton] at h
      exact .inr ⟨first, List.mem_cons_self, h⟩
    · rw [List.intercalate_cons_of_ne_nil hnil, List.append_assoc, List.mem_append, List.singleton_append,
        List.mem_cons] at h
      rcases h with h | rfl | h
      · exact .inr ⟨first, List.mem_cons_self, h⟩
      · exact .inl rfl
      · exact (ih h).imp_right fun ⟨part, hpart, hc⟩ => ⟨part, List.mem_cons_of_mem first hpart, hc⟩

/-! ## Trimmed texts -/

/-- The text is `core` between blanks, and `core` has a blank at neither end. -/
structure Trims (text core : List Char) : Prop where
  between : ∃ before behind, text = before ++ core ++ behind ∧ ∀ c ∈ before ++ behind, isBlank c = true
  first : ∀ c ∈ core.head?, isBlank c = false
  last : ∀ c ∈ core.getLast?, isBlank c = false

theorem trimStart_append (h : ∀ c ∈ before, isBlank c = true) (text : List Char) :
    trimStart (before ++ text) = trimStart text :=
  List.dropWhile_append_of_pos h

theorem trimStart_of_head? (h : ∀ c ∈ text.head?, isBlank c = false) : trimStart text = text := by
  cases text with
  | nil => rfl
  | cons c rest => exact List.dropWhile_cons_of_neg (by simp [h c rfl])

theorem trimEnd_append (h : ∀ c ∈ behind, isBlank c = true) (text : List Char) :
    trimEnd (text ++ behind) = trimEnd text := by
  rw [trimEnd, trimEnd, List.reverse_append]
  exact congrArg List.reverse (trimStart_append (fun c hc => h c (List.mem_reverse.mp hc)) text.reverse)

theorem trimEnd_of_getLast? (h : ∀ c ∈ text.getLast?, isBlank c = false) : trimEnd text = text := by
  have hstart : trimStart text.reverse = text.reverse := trimStart_of_head? (by simpa using h)
  exact (congrArg List.reverse hstart).trans text.reverse_reverse

theorem exists_trimStart (text : List Char) :
    (∃ before, text = before ++ trimStart text ∧ ∀ c ∈ before, isBlank c = true) ∧
      ∀ c ∈ (trimStart text).head?, isBlank c = false := by
  refine ⟨⟨text.takeWhile isBlank, List.takeWhile_append_dropWhile.symm, fun c => List.mem_takeWhile_imp⟩, ?_⟩
  intro c hc
  have hnot := List.head?_dropWhile_not isBlank text
  rwa [show (text.dropWhile isBlank).head? = some c from hc] at hnot

theorem exists_trimEnd (text : List Char) :
    (∃ behind, text = trimEnd text ++ behind ∧ ∀ c ∈ behind, isBlank c = true) ∧
      ∀ c ∈ (trimEnd text).getLast?, isBlank c = false := by
  obtain ⟨⟨before, htext, hblank⟩, hfirst⟩ := exists_trimStart text.reverse
  refine ⟨⟨before.reverse, ?_, fun c hc => hblank c (List.mem_reverse.mp hc)⟩, ?_⟩
  · have hreverse := congrArg List.reverse htext
    rwa [List.reverse_reverse, List.reverse_append] at hreverse
  · intro c hc
    exact hfirst c (by simpa [trimEnd, trimStart] using hc)

theorem trims_trim (text : List Char) : Trims text (trim text) := by
  obtain ⟨⟨before, htext, hbefore⟩, hfirst⟩ := exists_trimStart text
  obtain ⟨⟨behind, hstart, hbehind⟩, hlast⟩ := exists_trimEnd (trimStart text)
  refine ⟨⟨before, behind, ?_, ?_⟩, fun c hc => ?_, hlast⟩
  · rw [trim, List.append_assoc, ← hstart, ← htext]
  · exact List.forall_mem_append.mpr ⟨hbefore, hbehind⟩
  · refine hfirst c ?_
    rw [hstart, List.head?_append, show (trimEnd (trimStart text)).head? = some c from hc]
    rfl

theorem trim_eq_iff : trim text = core ↔ Trims text core := by
  constructor
  · rintro rfl
    exact trims_trim text
  · rintro ⟨⟨before, behind, rfl, hblank⟩, hfirst, hlast⟩
    obtain ⟨hbefore, hbehind⟩ := List.forall_mem_append.mp hblank
    rw [trim, List.append_assoc, trimStart_append hbefore]
    cases core with
    | nil =>
      have hnone : trimStart behind = [] := List.dropWhile_eq_nil_iff.mpr hbehind
      rw [List.nil_append, hnone]
      rfl
    | cons c rest =>
      rw [trimStart_of_head? (by simpa using hfirst), trimEnd_append hbehind, trimEnd_of_getLast? hlast]

theorem trims_self (h : ∀ c ∈ text, isBlank c = false) : Trims text text where
  between := ⟨[], [], by simp, nofun⟩
  first := fun c hc => h c (List.mem_of_head? hc)
  last := fun c hc => h c (List.mem_of_getLast? hc)

/-! ## Numerals -/

/-- The text is a plus sign, which may be missing, and one or more digits, with the value `n` within the limit. -/
structure Numeral (limit : Nat) (text : List Char) (n : Nat) : Prop where
  written : ∃ digits, (text = digits ∨ text = '+' :: digits) ∧ digits ≠ [] ∧ (∀ c ∈ digits, c.isDigit = true) ∧
    Nat.ofDigitChars 10 digits 0 = n
  within : n ≤ limit

theorem le_ofDigitChars (digits : List Char) (value : Nat) : value ≤ Nat.ofDigitChars 10 digits value := by
  induction digits generalizing value with
  | nil => exact Nat.le_of_eq Nat.ofDigitChars_nil.symm
  | cons c rest ih =>
    rw [Nat.ofDigitChars_cons]
    have := ih (10 * value + (c.toNat - '0'.toNat))
    omega

/-- Digits are read if the whole number is within the limit: the parts of it are no greater. -/
theorem readDigits_eq_ok_iff (hvalue : value ≤ limit) : readDigits limit value digits = .ok n ↔
    (∀ c ∈ digits, c.isDigit = true) ∧ Nat.ofDigitChars 10 digits value = n ∧ n ≤ limit := by
  induction digits generalizing value with
  | nil =>
    rw [readDigits, Nat.ofDigitChars_nil]
    constructor
    · intro h
      cases h
      exact ⟨List.forall_mem_nil _, rfl, hvalue⟩
    · rintro ⟨-, rfl, -⟩
      rfl
  | cons c rest ih =>
    simp only [readDigits, List.forall_mem_cons, Nat.ofDigitChars_cons, Nat.mul_comm value 10]
    by_cases hdigit : c.isDigit = true
    · rw [if_pos hdigit]
      by_cases hnext : 10 * value + (c.toNat - '0'.toNat) ≤ limit
      · rw [if_pos hnext, ih hnext, and_iff_right hdigit]
      · rw [if_neg hnext]
        refine iff_of_false (fun h => by cases h) ?_
        rintro ⟨-, rfl, hle⟩
        exact hnext (Nat.le_trans (le_ofDigitChars rest _) hle)
    · rw [if_neg hdigit]
      exact iff_of_false (fun h => by cases h) fun h => hdigit h.1.1

theorem numeral_iff_of_unsigned (hsign : ∀ rest, text ≠ '+' :: rest) (hsome : text ≠ []) :
    Numeral limit text n ↔
      (∀ c ∈ text, c.isDigit = true) ∧ Nat.ofDigitChars 10 text 0 = n ∧ n ≤ limit := by
  constructor
  · rintro ⟨⟨digits, rfl | rfl, -, hdigits, hvalue⟩, hle⟩
    · exact ⟨hdigits, hvalue, hle⟩
    · exact absurd rfl (hsign digits)
  · rintro ⟨hdigits, hvalue, hle⟩
    exact ⟨⟨text, .inl rfl, hsome, hdigits, hvalue⟩, hle⟩

theorem numeral_iff_of_signed (hsome : digits ≠ []) : Numeral limit ('+' :: digits) n ↔
    (∀ c ∈ digits, c.isDigit = true) ∧ Nat.ofDigitChars 10 digits 0 = n ∧ n ≤ limit := by
  constructor
  · rintro ⟨⟨digits', rfl | heq, -, hdigits, hvalue⟩, hle⟩
    · exact absurd (hdigits '+' List.mem_cons_self) (by decide)
    · obtain ⟨-, rfl⟩ := List.cons.inj heq
      exact ⟨hdigits, hvalue, hle⟩
  · rintro ⟨hdigits, hvalue, hle⟩
    exact ⟨⟨digits, .inr rfl, hsome, hdigits, hvalue⟩, hle⟩

theorem readDecimal_eq_ok_iff : readDecimal limit text = .ok n ↔ Numeral limit text n := by
  unfold readDecimal
  split
  · refine iff_of_false nofun ?_
    rintro ⟨⟨digits, hnil | hnil, hsome, -⟩, -⟩
    · exact hsome hnil.symm
    · cases hnil
  · refine iff_of_false nofun ?_
    rintro ⟨⟨digits, rfl | hsign, hsome, hdigits, -⟩, -⟩
    · exact absurd (hdigits '+' List.mem_cons_self) (by decide)
    · exact hsome (List.cons.inj hsign).2.symm
  · next digits hsome =>
    rw [readDigits_eq_ok_iff (Nat.zero_le limit), numeral_iff_of_signed fun h => hsome (h ▸ rfl)]
  · next hnil _ hsign =>
    rw [readDigits_eq_ok_iff (Nat.zero_le limit), numeral_iff_of_unsigned hsign hnil]

def PaddedNumeral (limit : Nat) (text : List Char) (n : Nat) : Prop :=
  ∃ core, Trims text core ∧ Numeral limit core n

theorem readDecimal_trim_eq_ok_iff : readDecimal limit (trim text) = .ok n ↔ PaddedNumeral limit text n := by
  rw [readDecimal_eq_ok_iff]
  constructor
  · exact fun h => ⟨trim text, trims_trim text, h⟩
  · rintro ⟨core, htrims, h⟩
    rwa [trim_eq_iff.mpr htrims]

theorem isBlank_of_isDigit {c : Char} (h : c.isDigit = true) : isBlank c = false := by
  have hcode : 48 ≤ c.toNat ∧ c.toNat ≤ 57 := Char.isDigit_iff_toNat.mp h
  simp only [isBlank, Bool.or_eq_false_iff, Bool.and_eq_false_iff, decide_eq_false_iff_not, beq_eq_false_iff_ne]
  omega

theorem isDigit_of_mem_toDigits {c : Char} (h : c ∈ Nat.toDigits 10 n) : c.isDigit = true :=
  Nat.isDigit_of_mem_toDigits (by decide) (by decide) h

theorem paddedNumeral_toDigits (h : n ≤ limit) : PaddedNumeral limit (Nat.toDigits 10 n) n :=
  ⟨_, trims_self fun _ hc => isBlank_of_isDigit (isDigit_of_mem_toDigits hc),
    ⟨_, .inl rfl, Nat.toDigits_ne_nil, fun _ => isDigit_of_mem_toDigits, Nat.ofDigitChars_ten_toDigits⟩, h⟩

end StructuralEditor.Text
