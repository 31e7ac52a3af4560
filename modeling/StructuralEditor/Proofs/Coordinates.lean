import StructuralEditor.Path
import StructuralEditor.Position
import StructuralEditor.Proofs.Outcome
import StructuralEditor.Proofs.Text

/-!
# Written paths and positions

* `Path.Reads`, `Path.parse_eq_iff` : what is read from a text as a path, and what is reported of any other text;
* `Position.parse_eq_ok_iff` : the texts that are read as positions;
* `Path.parse_toString`, `Position.parse_toString` : what is written is read back;
* `Path.parse_toString_and_iff` : these together.
-/

namespace StructuralEditor

/-! ## Paths -/

namespace Path

variable {text : String} {input part : List Char} {n : Nat}

/-- The part of a written path is an index between blanks. -/
def IsIndex (part : List Char) (n : Nat) : Prop := Text.PaddedNumeral Text.limit32 part n

theorem parseSegment_eq_ok_iff : parseSegment input part = .ok n ↔ IsIndex part n := by
  rw [IsIndex, ← Text.readDecimal_trim_eq_ok_iff, parseSegment]
  cases Text.readDecimal Text.limit32 (Text.trim part) <;> simp

theorem parseSegment_eq_error_iff {e : ReadError} : parseSegment input part = .error e ↔
    (∀ n, ¬ IsIndex part n) ∧ e = ⟨String.ofList input, String.ofList part⟩ := by
  simp only [IsIndex, ← Text.readDecimal_trim_eq_ok_iff, parseSegment]
  cases Text.readDecimal Text.limit32 (Text.trim part) <;> simp [eq_comm]

/-- What is read from a text as a path: nothing but blanks is the empty path, indices between commas are a path, and
otherwise the first part that is no index is reported, with its own blanks. -/
inductive Reads (text : String) : Except ReadError Path → Prop
  | blank (trims : Text.Trims text.toList []) : Reads text (.ok empty)
  | indices {core : List Char} {parts : List (List Char)} {segments : List Nat} (trims : Text.Trims text.toList core)
    (some : core ≠ []) (parted : Text.Parted ',' core parts) (indices : List.Forall₂ IsIndex parts segments) :
    Reads text (.ok ⟨segments⟩)
  | refused {core part : List Char} {before behind : List (List Char)} (trims : Text.Trims text.toList core)
    (some : core ≠ []) (parted : Text.Parted ',' core (before ++ part :: behind))
    (indices : ∀ earlier ∈ before, ∃ n, IsIndex earlier n) (bad : ∀ n, ¬ IsIndex part n) :
    Reads text (.error ⟨String.ofList core, String.ofList part⟩)

theorem parse_of_trim (h : Text.trim text.toList = input) (hsome : input ≠ []) :
    parse text = Path.mk <$> (Text.pieces ',' input).mapM (parseSegment input) := by
  rw [parse, h]
  cases input with
  | nil => exact absurd rfl hsome
  | cons c rest => rfl

theorem reads_parse (text : String) : Reads text (parse text) := by
  by_cases hblank : Text.trim text.toList = []
  · rw [parse, hblank]
    exact .blank (Text.trim_eq_iff.mp hblank)
  · have htrims := Text.trims_trim text.toList
    rw [parse_of_trim rfl hblank]
    cases hread : (Text.pieces ',' (Text.trim text.toList)).mapM (parseSegment (Text.trim text.toList)) with
    | ok segments =>
      refine .indices htrims hblank (Text.pieces_eq_iff.mp rfl) ?_
      exact (ok_mapM_iff.mp hread).imp fun _ _ => parseSegment_eq_ok_iff.mp
    | error e =>
      obtain ⟨before, part, behind, hpieces, hbefore, herror⟩ := error_mapM_iff.mp hread
      obtain ⟨hbad, rfl⟩ := parseSegment_eq_error_iff.mp herror
      refine .refused htrims hblank (Text.pieces_eq_iff.mp hpieces) (fun earlier hmem => ?_) hbad
      obtain ⟨n, hn⟩ := hbefore earlier hmem
      exact ⟨n, parseSegment_eq_ok_iff.mp hn⟩

theorem parse_eq_of_reads {r : Except ReadError Path} (h : Reads text r) : parse text = r := by
  cases h with
  | blank trims => rw [parse, Text.trim_eq_iff.mpr trims]
  | @indices core parts segments trims some parted indices =>
    have hread : parts.mapM (parseSegment core) = .ok segments :=
      ok_mapM_iff.mpr (indices.imp fun _ _ => parseSegment_eq_ok_iff.mpr)
    rw [parse_of_trim (Text.trim_eq_iff.mpr trims) some, Text.pieces_eq_iff.mpr parted, hread]
    rfl
  | @refused core part before behind trims some parted indices bad =>
    have hread : (before ++ part :: behind).mapM (parseSegment core) = .error _ :=
      error_mapM_iff.mpr ⟨before, part, behind, rfl, fun earlier hmem => ?_, parseSegment_eq_error_iff.mpr ⟨bad, rfl⟩⟩
    · rw [parse_of_trim (Text.trim_eq_iff.mpr trims) some, Text.pieces_eq_iff.mpr parted, hread]
      rfl
    · obtain ⟨n, hn⟩ := indices earlier hmem
      exact ⟨n, parseSegment_eq_ok_iff.mpr hn⟩

theorem parse_eq_iff {r : Except ReadError Path} : parse text = r ↔ Reads text r :=
  ⟨fun h => h ▸ reads_parse text, parse_eq_of_reads⟩

/-- The segments are within the limit of sibling indices. -/
def Fits (p : Path) : Prop := ∀ segment ∈ p.segments, segment ≤ Text.limit32

theorem toList_toString (p : Path) : (toString p).toList = [','].intercalate (p.segments.map (Nat.toDigits 10)) := by
  show (",".intercalate (p.segments.map toString)).toList = _
  rw [String.toList_intercalate, List.map_map]
  congr 1
  exact List.map_congr_left fun n _ => Nat.toList_repr

theorem parted_digits {segments : List Nat} (h : segments ≠ []) :
    Text.Parted ',' ([','].intercalate (segments.map (Nat.toDigits 10))) (segments.map (Nat.toDigits 10)) where
  joined := rfl
  apart := by
    intro part hpart hcomma
    obtain ⟨n, -, rfl⟩ := List.mem_map.mp hpart
    exact absurd (Text.isDigit_of_mem_toDigits hcomma) (by decide)
  some := by simpa using h

theorem isBlank_of_mem_toString {p : Path} {c : Char} (hc : c ∈ (toString p).toList) : Text.isBlank c = false := by
  rw [toList_toString] at hc
  rcases Text.mem_intercalate_cases hc with rfl | ⟨part, hpart, hc⟩
  · decide
  · obtain ⟨n, -, rfl⟩ := List.mem_map.mp hpart
    exact Text.isBlank_of_isDigit (Text.isDigit_of_mem_toDigits hc)

theorem parse_toString {p : Path} (h : p.Fits) : parse (toString p) = .ok p := by
  have htrims := Text.trims_self fun c hc => isBlank_of_mem_toString (p := p) hc
  obtain ⟨segments⟩ := p
  refine parse_eq_of_reads ?_
  by_cases hnil : segments = []
  · subst hnil
    exact .blank htrims
  · refine .indices htrims ?_ ((toList_toString _) ▸ parted_digits hnil) ?_
    · intro hempty
      have hjoined := (toList_toString ⟨segments⟩).symm.trans hempty
      have hpieces := Text.pieces_eq_iff.mpr (parted_digits hnil)
      rw [hjoined] at hpieces
      cases segments with
      | nil => exact hnil rfl
      | cons n rest => exact Nat.toDigits_ne_nil (List.cons.inj hpieces).1.symm
    · rw [List.forall₂_map_left_iff, List.forall₂_same]
      exact fun n hn => Text.paddedNumeral_toDigits (h n hn)

end Path

/-! ## Positions -/

namespace Position

variable {text : String} {q : Position}

def Fits (q : Position) : Prop := q.line ≤ Text.limit32 ∧ q.column ≤ Text.limit32

theorem parse_eq_ok_iff_of_split {line column : List Char} (h : text.toList = line ++ ':' :: column)
    (hline : ':' ∉ line) : parse text = .ok q ↔
      Text.PaddedNumeral Text.limit32 line q.line ∧ Text.PaddedNumeral Text.limit32 column q.column := by
  have hkeep : ∀ c ∈ line, decide (c ≠ ':') = true := by
    intro c hc
    simpa using fun heq : c = ':' => hline (heq ▸ hc)
  have hbefore : text.toList.takeWhile (· ≠ ':') = line := by
    rw [h, List.takeWhile_append_of_pos hkeep, List.takeWhile_cons_of_neg (by simp), List.append_nil]
  have hbehind : text.toList.dropWhile (· ≠ ':') = ':' :: column := by
    rw [h, List.dropWhile_append_of_pos hkeep, List.dropWhile_cons_of_neg (by simp)]
  obtain ⟨l, c⟩ := q
  rw [parse, hbehind, ← Text.readDecimal_trim_eq_ok_iff, ← Text.readDecimal_trim_eq_ok_iff]
  simp only [hbefore]
  cases Text.readDecimal Text.limit32 (Text.trim line) with
  | error cause => exact iff_of_false nofun nofun
  | ok l' => cases Text.readDecimal Text.limit32 (Text.trim column) <;> simp

/-- A text is read as a position if it is a line and a column, each between blanks, with a colon between them. -/
theorem parse_eq_ok_iff : parse text = .ok q ↔ ∃ line column, text.toList = line ++ ':' :: column ∧ ':' ∉ line ∧
    Text.PaddedNumeral Text.limit32 line q.line ∧ Text.PaddedNumeral Text.limit32 column q.column := by
  constructor
  · intro h
    by_cases hcolon : ':' ∈ text.toList
    · -- The line ends at the first colon.
      obtain ⟨line, column, htext, hline⟩ := List.eq_append_cons_of_mem hcolon
      exact ⟨line, column, htext, hline, (parse_eq_ok_iff_of_split htext hline).mp h⟩
    · have hnone : text.toList.dropWhile (· ≠ ':') = [] :=
        List.dropWhile_eq_nil_iff.mpr fun c hc => by simpa using fun heq : c = ':' => hcolon (heq ▸ hc)
      rw [parse, hnone] at h
      cases h
  · rintro ⟨line, column, htext, hline, h⟩
    exact (parse_eq_ok_iff_of_split htext hline).mpr h

theorem toList_toString (q : Position) :
    (toString q).toList = Nat.toDigits 10 q.line ++ ':' :: Nat.toDigits 10 q.column := by
  show (toString q.line ++ ":" ++ toString q.column).toList = _
  rw [String.toList_append, String.toList_append, List.append_assoc]
  simp [Nat.toString_eq_repr]

theorem parse_toString (h : q.Fits) : parse (toString q) = .ok q := by
  refine parse_eq_ok_iff.mpr ⟨_, _, toList_toString q, fun hcolon => ?_, Text.paddedNumeral_toDigits h.1,
    Text.paddedNumeral_toDigits h.2⟩
  exact absurd (Text.isDigit_of_mem_toDigits hcolon) (by decide)

end Position

/-! ## Both -/

/-- Written paths and positions are read back. What is read as a path is nothing, or indices between commas, and any
other text is refused for its first part that is no index; what is read as a position is a line, a colon and a
column. -/
theorem Path.parse_toString_and_iff :
    (∀ p : Path, p.Fits → parse (toString p) = .ok p) ∧
    (∀ q : Position, q.Fits → Position.parse (toString q) = .ok q) ∧
    (∀ text r, parse text = r ↔ Reads text r) ∧
    ∀ text q, Position.parse text = .ok q ↔ ∃ line column, text.toList = line ++ ':' :: column ∧ ':' ∉ line ∧
      Text.PaddedNumeral Text.limit32 line q.line ∧ Text.PaddedNumeral Text.limit32 column q.column :=
  ⟨fun _ => parse_toString, fun _ => Position.parse_toString, fun _ _ => parse_eq_iff,
    fun _ _ => Position.parse_eq_ok_iff⟩

/-- The greatest index and the greatest line are read back, with signs and blanks too; an index that is too large is
reported with the blanks around it. -/
theorem Path.parse_toString_and_iff_limit :
    (⟨[0, 4294967295, 12]⟩ : Path).Fits ∧ toString (⟨[0, 4294967295, 12]⟩ : Path) = "0,4294967295,12" ∧
    parse "0,4294967295,12" = .ok ⟨[0, 4294967295, 12]⟩ ∧
    (⟨4294967295, 7⟩ : Position).Fits ∧ toString (⟨4294967295, 7⟩ : Position) = "4294967295:7" ∧
    Position.parse "4294967295:7" = .ok ⟨4294967295, 7⟩ ∧
    Reads " +0, 007 " (.ok ⟨[0, 7]⟩) ∧
    Reads " 1 ,\t4294967296 , y " (.error ⟨"1 ,\t4294967296 , y", "\t4294967296 "⟩) := by
  have hpath : toString (⟨[0, 4294967295, 12]⟩ : Path) = "0,4294967295,12" := by decide +kernel
  have hposition : toString (⟨4294967295, 7⟩ : Position) = "4294967295:7" := by decide +kernel
  have hfits : (⟨[0, 4294967295, 12]⟩ : Path).Fits := by
    unfold Fits
    decide
  have hfits' : (⟨4294967295, 7⟩ : Position).Fits := ⟨by decide, by decide⟩
  obtain ⟨hread, hread', hreads, -⟩ := parse_toString_and_iff
  have hback := hread _ hfits
  have hback' := hread' _ hfits'
  rw [hpath] at hback
  rw [hposition] at hback'
  exact ⟨hfits, hpath, hback, hfits', hposition, hback', (hreads _ _).mp (by rfl), (hreads _ _).mp (by rfl)⟩

end StructuralEditor
