import Mathlib.Data.List.TakeWhile
import StructuralEditor.Proofs.Buffer.Boundaries
import StructuralEditor.Proofs.Span

/-!
# Overflow of coordinates

Lines and columns are numbers of 32 bits. A position is carried through a change by sums and differences that are
checked one by one, and by counts that are cut to 32 bits without a check. Differences never go wrong, and the
counts are right unless a text has `2 ^ 32` characters or more.

* `Change.finish?_eq_error_iff`, `Change.shift?_eq_error_iff` : the sums that go beyond the limit;
* `Change.finish?_eq_ok`, `Change.shift?_eq_ok` : the other sums lead where the change says;
* `Change.landing`, `Change.landing_le_landing` : where positions from the start of a change on are after it, and that
  they stay in order;
* `Change.Adjusts`, `Change.adjusts` : all of this for every change, and `Change.not_adjusts_of_long`, what becomes
  of it if the counts are cut.
-/

namespace StructuralEditor

/-! ## Checked arithmetic -/

namespace Coordinate

variable {a b d : Nat}

theorem ofCount_eq_self (h : a ≤ Text.limit32) : ofCount a = a := Nat.mod_eq_of_lt (Nat.lt_succ_of_le h)

theorem failsWith_add (a b : Nat) : FailsWith (· = .addition) (add a b) := by
  unfold add
  split
  · exact .ok _
  · exact .error rfl

/-- What is taken off a sum is no more than the sum, if it is no more than one of its parts. -/
theorem move_eq (h : d ≤ a) : move a b d = if a + b ≤ Text.limit32 then .ok (a + b - d) else .error .addition := by
  unfold move add
  split
  · exact if_pos (Nat.le_add_right_of_le h)
  · rfl

end Coordinate

namespace Change

variable {c : Change} {f p q : Position}

/-! ## The end of a change -/

/-- What is added for the end of the text: the number of its newlines, or of its characters if it has none. -/
def added (c : Change) : Nat := if '\n' ∈ c.text.toList then c.text.toList.count '\n' else c.text.length

/-- The sum for the end of the text goes beyond the limit: that of lines if the text has several, else that of
columns. -/
def FinishOverflows (c : Change) : Prop :=
  '\n' ∉ c.text.toList ∧ Text.limit32 < c.start.column + c.text.length ∨
    '\n' ∈ c.text.toList ∧ Text.limit32 < c.start.line + c.text.toList.count '\n'

theorem finish_of_newline (h : '\n' ∈ c.text.toList) : c.finish =
    ⟨c.start.line + c.text.toList.count '\n', (c.text.toList.reverse.takeWhile (· ≠ '\n')).length⟩ := by
  rw [finish, Position.after_eq_down, Position.zero_after, Position.down,
    if_neg (Nat.ne_of_gt (List.count_pos_iff.mpr h))]

theorem finish_of_line (h : '\n' ∉ c.text.toList) : c.finish = ⟨c.start.line, c.start.column + c.text.length⟩ := by
  have hline : c.text.toList.reverse.takeWhile (· ≠ '\n') = c.text.toList.reverse := by
    refine List.takeWhile_eq_self_iff.mpr fun d hd => decide_eq_true ?_
    rintro rfl
    exact h (List.mem_reverse.mp hd)
  rw [finish, Position.after_eq_down, Position.zero_after, hline, List.count_eq_zero.mpr h, Position.down_zero,
    List.length_reverse, String.length_toList]

theorem finish?_of_newline (h : '\n' ∈ c.text.toList) : c.finish? =
    if c.start.line + Coordinate.ofCount (c.text.toList.count '\n') ≤ Text.limit32 then
      .ok ⟨c.start.line + Coordinate.ofCount (c.text.toList.count '\n'),
        Coordinate.ofCount (c.text.toList.reverse.takeWhile (· ≠ '\n')).length⟩
    else .error .addition := by
  simp only [finish?, if_pos h, Coordinate.add]
  split <;> rfl

theorem finish?_of_line (h : '\n' ∉ c.text.toList) : c.finish? =
    if c.start.column + Coordinate.ofCount c.text.length ≤ Text.limit32 then
      .ok ⟨c.start.line, c.start.column + Coordinate.ofCount c.text.length⟩
    else .error .addition := by
  simp only [finish?, if_neg h, Coordinate.add, String.length_toList]
  split <;> rfl

theorem failsWith_finish? (c : Change) : FailsWith (· = .addition) c.finish? := by
  by_cases h : '\n' ∈ c.text.toList
  · rw [finish?_of_newline h]
    split
    · exact .ok _
    · exact .error rfl
  · rw [finish?_of_line h]
    split
    · exact .ok _
    · exact .error rfl

theorem finish?_eq_error_iff (hadded : c.added ≤ Text.limit32) :
    c.finish? = .error .addition ↔ c.FinishOverflows := by
  unfold added at hadded
  by_cases h : '\n' ∈ c.text.toList
  · rw [if_pos h] at hadded
    simp [finish?_of_newline h, FinishOverflows, h, Coordinate.ofCount_eq_self hadded]
  · rw [if_neg h] at hadded
    simp [finish?_of_line h, FinishOverflows, h, Coordinate.ofCount_eq_self hadded]

/-- A text within the limit has no counts beyond it, so that none is cut short. -/
theorem finish?_eq_ok (hlength : c.text.length ≤ Text.limit32) (h : ¬ c.FinishOverflows) : c.finish? = .ok c.finish := by
  have hall : c.text.toList.length ≤ Text.limit32 := String.length_toList.trans_le hlength
  by_cases hnewline : '\n' ∈ c.text.toList
  · have hlast : (c.text.toList.reverse.takeWhile (· ≠ '\n')).length ≤ Text.limit32 := by
      refine (List.takeWhile_sublist _).length_le.trans ?_
      rwa [List.length_reverse]
    have hline : c.start.line + c.text.toList.count '\n' ≤ Text.limit32 :=
      Nat.not_lt.mp fun hlt => h (.inr ⟨hnewline, hlt⟩)
    rw [finish?_of_newline hnewline, Coordinate.ofCount_eq_self (List.count_le_length.trans hall),
      Coordinate.ofCount_eq_self hlast, if_pos hline, finish_of_newline hnewline]
  · have hcolumn : c.start.column + c.text.length ≤ Text.limit32 :=
      Nat.not_lt.mp fun hlt => h (.inl ⟨hnewline, hlt⟩)
    rw [finish?_of_line hnewline, Coordinate.ofCount_eq_self hlength, if_pos hcolumn, finish_of_line hnewline]

/-- The text ends behind its start, unless its newlines are miscounted. -/
theorem start_le_of_finish? (hlines : c.text.toList.count '\n' ≤ Text.limit32) (h : c.finish? = .ok f) :
    c.start ≤ f := by
  by_cases hnewline : '\n' ∈ c.text.toList
  · have hpos := List.count_pos_iff.mpr hnewline
    rw [finish?_of_newline hnewline, Coordinate.ofCount_eq_self hlines] at h
    split at h
    · cases h
      exact .inl (Nat.lt_add_of_pos_right hpos)
    · cases h
  · rw [finish?_of_line hnewline] at h
    split at h
    · cases h
      exact .inr ⟨rfl, Nat.le_add_right _ _⟩
    · cases h

/-! ## A shifted position -/

/-- Where a position from the start of the change on is after it, from where its text ends. -/
def landing (c : Change) (finish p : Position) : Position :=
  if p ≤ c.stop then finish
  else
    { line := p.line + finish.line - c.stop.line
      column := if p.line = c.stop.line then p.column + finish.column - c.stop.column else p.column }

/-- One of the sums for a position behind the change goes beyond the limit. -/
def LandingOverflows (c : Change) (finish p : Position) : Prop :=
  c.stop < p ∧ (Text.limit32 < p.line + finish.line ∨
    p.line = c.stop.line ∧ Text.limit32 < p.column + finish.column)

/-- A position behind the change is behind its end on the same line, or on a later line. -/
theorem behind_cases (h : ¬ p ≤ c.stop) :
    c.stop.line ≤ p.line ∧ (p.line = c.stop.line → c.stop.column < p.column) := by
  simp only [Position.le_def] at h
  omega

/-- Behind the change a coordinate is as great as what is taken off after the sum, so that only sums go wrong. -/
theorem shiftBehind?_eq (h : ¬ p ≤ c.stop) : c.shiftBehind? f p =
    if p.line + f.line ≤ Text.limit32 ∧ (p.line = c.stop.line → p.column + f.column ≤ Text.limit32)
    then .ok (c.landing f p) else .error .addition := by
  obtain ⟨hline, hcolumn⟩ := behind_cases h
  rw [shiftBehind?, Coordinate.move_eq hline, landing, if_neg h]
  by_cases hlines : p.line + f.line ≤ Text.limit32
  · by_cases hsame : p.line = c.stop.line
    · rw [Coordinate.move_eq (hcolumn hsame).le, if_pos hlines, if_pos hsame, if_pos hsame]
      by_cases hcolumns : p.column + f.column ≤ Text.limit32
      · rw [if_pos hcolumns, if_pos ⟨hlines, fun _ => hcolumns⟩]
        rfl
      · rw [if_neg hcolumns, if_neg fun h => hcolumns (h.2 hsame)]
        rfl
    · rw [if_pos hlines, if_neg hsame, if_neg hsame, if_pos ⟨hlines, fun h => absurd h hsame⟩]
      rfl
  · have hnot : ¬ (p.line + f.line ≤ Text.limit32 ∧
        (p.line = c.stop.line → p.column + f.column ≤ Text.limit32)) := fun h => hlines h.1
    rw [if_neg hlines, if_neg hnot]
    rfl

theorem shift?_before (h : p < c.start) : c.shift? p = .ok p := if_pos h

theorem shift?_inside (h : c.start ≤ p) (h' : p ≤ c.stop) : c.shift? p = c.finish? := by
  rw [shift?, if_neg (not_lt_of_ge h)]
  simp only [if_pos h']
  cases c.finish? <;> rfl

/-- From the start of the change on, a position is shifted by where the text ends. -/
theorem shift?_from (h : c.start ≤ p) (hf : c.finish? = .ok f) :
    (c.LandingOverflows f p → c.shift? p = .error .addition) ∧
      (¬ c.LandingOverflows f p → c.shift? p = .ok (c.landing f p)) := by
  by_cases hinside : p ≤ c.stop
  · rw [shift?_inside h hinside, hf, landing, if_pos hinside]
    exact ⟨fun hover => absurd hinside (not_le_of_gt hover.1), fun _ => rfl⟩
  · have hshift : c.shift? p = c.shiftBehind? f p := by
      rw [shift?, if_neg (not_lt_of_ge h), hf]
      exact if_neg hinside
    rw [hshift, shiftBehind?_eq hinside]
    have hover : c.LandingOverflows f p ↔
        ¬ (p.line + f.line ≤ Text.limit32 ∧ (p.line = c.stop.line → p.column + f.column ≤ Text.limit32)) := by
      rw [LandingOverflows, and_iff_right (lt_of_not_ge hinside), not_and_or, Nat.not_le, Classical.not_imp,
        Nat.not_le]
    rw [hover, not_not]
    exact ⟨fun h => if_neg h, fun h => if_pos h⟩

/-- A position is not shifted only if it is at the start of the change or behind, and the sum for the end of the
text goes beyond the limit, or one of the sums for the position itself. -/
theorem shift?_eq_error_iff {e : Overflow} : c.shift? p = .error e ↔ e = .addition ∧ c.start ≤ p ∧
    (c.finish? = .error .addition ∨ ∃ f, c.finish? = .ok f ∧ c.LandingOverflows f p) := by
  rcases lt_or_ge p c.start with hbefore | hfrom
  · rw [shift?_before hbefore]
    refine ⟨fun h => (nomatch h), fun h => absurd h.2.1 (not_le_of_gt hbefore)⟩
  cases hfinish : c.finish? with
  | error fault =>
    obtain rfl : fault = .addition := c.failsWith_finish? fault hfinish
    have hshift : c.shift? p = .error .addition := by
      rw [shift?, if_neg (not_lt_of_ge hfrom), hfinish]
      rfl
    rw [hshift]
    exact ⟨fun h => ⟨(Except.error.inj h).symm, hfrom, .inl rfl⟩, fun h => congrArg _ h.1.symm⟩
  | ok f =>
    obtain ⟨hover, hland⟩ := shift?_from hfrom hfinish
    by_cases h : c.LandingOverflows f p
    · rw [hover h]
      exact ⟨fun he => ⟨(Except.error.inj he).symm, hfrom, .inr ⟨f, rfl, h⟩⟩, fun h => congrArg _ h.1.symm⟩
    · rw [hland h]
      refine ⟨fun he => (nomatch he), ?_⟩
      rintro ⟨-, -, he | ⟨f', hf', h'⟩⟩
      · cases he
      · cases hf'
        exact absurd h' h

theorem shift?_eq_ok (hlength : c.text.length ≤ Text.limit32) (h : ¬ c.FinishOverflows)
    (hover : ¬ c.LandingOverflows c.finish p) : c.shift? p = .ok (c.shift p) := by
  rcases lt_or_ge p c.start with hbefore | hfrom
  · rw [shift?_before hbefore, shift, if_pos hbefore]
  · rw [(shift?_from hfrom (finish?_eq_ok hlength h)).2 hover, shift, if_neg (not_lt_of_ge hfrom)]
    rfl

/-! ## Order -/

/-- From the start of a change on, nothing moves before the end of its text. -/
theorem finish_le_landing (c : Change) (f p : Position) : f ≤ c.landing f p := by
  unfold landing
  split
  · exact le_refl f
  · next hbehind =>
    obtain ⟨hline, hcolumn⟩ := behind_cases hbehind
    rw [Position.le_def]
    split
    · next hsame =>
      have := hcolumn hsame
      simp only
      omega
    · simp only
      omega

theorem landing_le_landing (f : Position) (h : p ≤ q) : c.landing f p ≤ c.landing f q := by
  rcases le_or_gt p c.stop with hinside | hbehind
  · have hcollapse : c.landing f p = f := if_pos hinside
    rw [hcollapse]
    exact finish_le_landing c f q
  · have hbehind' : c.stop < q := hbehind.trans_le h
    obtain ⟨hline, -⟩ := behind_cases (not_le_of_gt hbehind)
    rw [landing, landing, if_neg (not_le_of_gt hbehind), if_neg (not_le_of_gt hbehind')]
    simp only [Position.le_def] at h ⊢
    split <;> split <;> omega

theorem exists_landing_of_shift? {p' : Position} (h : c.shift? p = .ok p') (hfrom : c.start ≤ p) :
    ∃ f, c.finish? = .ok f ∧ p' = c.landing f p := by
  cases hfinish : c.finish? with
  | error e =>
    have herror := (shift?_eq_error_iff (p := p)).mpr ⟨rfl, hfrom, .inl (c.failsWith_finish? e hfinish ▸ hfinish)⟩
    cases h.symm.trans herror
  | ok f =>
    obtain ⟨hover, hland⟩ := shift?_from hfrom hfinish
    by_cases hlanding : c.LandingOverflows f p
    · cases h.symm.trans (hover hlanding)
    · exact ⟨f, rfl, Except.ok.inj (h.symm.trans (hland hlanding))⟩

/-- Positions stay in order: those before a change are before its text, those behind it are behind, and there all move
alike. -/
theorem shift?_le_shift? {p' q' : Position} (hlines : c.text.toList.count '\n' ≤ Text.limit32) (h : p ≤ q)
    (hp : c.shift? p = .ok p') (hq : c.shift? q = .ok q') : p' ≤ q' := by
  rcases lt_or_ge q c.start with hqbefore | hqfrom
  · have hpbefore := h.trans_lt hqbefore
    rw [shift?_before hpbefore] at hp
    rw [shift?_before hqbefore] at hq
    cases hp
    cases hq
    exact h
  · obtain ⟨f, hf, rfl⟩ := exists_landing_of_shift? hq hqfrom
    rcases lt_or_ge p c.start with hpbefore | hpfrom
    · rw [shift?_before hpbefore] at hp
      cases hp
      exact hpbefore.le.trans ((start_le_of_finish? hlines hf).trans (finish_le_landing c f q))
    · obtain ⟨f', hf', rfl⟩ := exists_landing_of_shift? hp hpfrom
      cases hf.symm.trans hf'
      exact landing_le_landing f h

/-! ## Every change -/

/-- How a change carries positions along: its differences are never negative, the sums beyond the limit are known
unless a count is cut to 32 bits, and what is carried along stays in order unless that is the number of newlines.
Nothing is asked of the ends of the change. -/
structure Adjusts (c : Change) : Prop where
  subtracts : ∀ p, c.shift? p ≠ .error .subtraction
  overflows_iff : c.added ≤ Text.limit32 → ∀ p, c.shift? p = .error .addition ↔ c.start ≤ p ∧
    (c.FinishOverflows ∨ ∃ f, c.finish? = .ok f ∧ c.stop < p ∧ (Text.limit32 < p.line + f.line ∨
      p.line = c.stop.line ∧ Text.limit32 < p.column + f.column))
  monotone : c.text.toList.count '\n' ≤ Text.limit32 →
    ∀ p q p' q', p ≤ q → c.shift? p = .ok p' → c.shift? q = .ok q' → p' ≤ q'

theorem adjusts (c : Change) : c.Adjusts where
  subtracts := by
    intro p h
    cases (shift?_eq_error_iff.mp h).1
  overflows_iff := by
    intro hadded p
    rw [shift?_eq_error_iff, finish?_eq_error_iff hadded, and_iff_right rfl]
    rfl
  monotone := fun hlines _ _ _ _ hle hp hq => shift?_le_shift? hlines hle hp hq

/-- So many characters on a line that their count is cut to nothing seem to end where they start. -/
theorem finish?_of_cut_line (h : '\n' ∉ c.text.toList) (hcut : Coordinate.ofCount c.text.length = 0)
    (hstart : c.start.column ≤ Text.limit32) : c.finish? = .ok c.start := by
  rw [finish?_of_line h, hcut, Nat.add_zero, if_pos hstart]

/-- So many newlines that their count is cut to nothing seem to end on the line that they start on. -/
theorem finish?_of_cut_newlines (h : '\n' ∈ c.text.toList)
    (hcut : Coordinate.ofCount (c.text.toList.count '\n') = 0) (hstart : c.start.line ≤ Text.limit32) : c.finish? =
      .ok ⟨c.start.line, Coordinate.ofCount (c.text.toList.reverse.takeWhile (· ≠ '\n')).length⟩ := by
  rw [finish?_of_newline h, hcut, Nat.add_zero, if_pos hstart]

/-- A count of `2 ^ 32` is cut to nothing: that many characters on a line seem to end where they start, and that many
newlines at the start of their line, before what stands before the change. -/
theorem not_adjusts_of_long :
    (∃ c : Change, c.start = ⟨0, 0⟩ ∧ c.stop = ⟨0, 0⟩ ∧ c.text.length = 2 ^ 32 ∧ c.FinishOverflows ∧
      c.shift? ⟨0, 0⟩ = .ok ⟨0, 0⟩) ∧
    ∃ c : Change, c.start = ⟨0, 5⟩ ∧ c.stop = ⟨0, 5⟩ ∧ c.text.toList.count '\n' = 2 ^ 32 ∧
      c.shift? ⟨0, 3⟩ = .ok ⟨0, 3⟩ ∧ c.shift? ⟨0, 5⟩ = .ok ⟨0, 0⟩ ∧ (⟨0, 0⟩ : Position) < ⟨0, 3⟩ := by
  obtain ⟨n, hn, hlimit, hcut⟩ : ∃ n, n = 2 ^ 32 ∧ Text.limit32 < n ∧ Coordinate.ofCount n = 0 :=
    ⟨_, rfl, Nat.lt_succ_self Text.limit32, Nat.mod_self (Text.limit32 + 1)⟩
  constructor
  · obtain ⟨c, hstart, hstop, htext⟩ : ∃ c : Change, c.start = ⟨0, 0⟩ ∧ c.stop = ⟨0, 0⟩ ∧
        c.text = String.ofList (List.replicate n 'x') := ⟨⟨_, _, _, ""⟩, rfl, rfl, rfl⟩
    have hlength : c.text.length = n := by rw [htext, String.length_ofList, List.length_replicate]
    have hline : '\n' ∉ c.text.toList := by
      rw [htext, String.toList_ofList, List.mem_replicate]
      exact fun h => absurd h.2 (by decide)
    have hfinish : c.finish? = .ok c.start :=
      finish?_of_cut_line hline (hlength ▸ hcut) (by rw [hstart]; exact Nat.zero_le _)
    refine ⟨c, hstart, hstop, hlength.trans hn, .inl ⟨hline, ?_⟩, ?_⟩
    · rw [hlength]
      exact Nat.lt_add_left _ hlimit
    · rw [shift?_inside (by rw [hstart]) (by rw [hstop]), hfinish, hstart]
  · obtain ⟨c, hstart, hstop, htext⟩ : ∃ c : Change, c.start = ⟨0, 5⟩ ∧ c.stop = ⟨0, 5⟩ ∧
        c.text = String.ofList (List.replicate n '\n') := ⟨⟨_, _, _, ""⟩, rfl, rfl, rfl⟩
    have hcount : c.text.toList.count '\n' = n := by rw [htext, String.toList_ofList, List.count_replicate_self]
    have hnewline : '\n' ∈ c.text.toList := List.count_pos_iff.mp (hcount.symm ▸ Nat.zero_lt_of_lt hlimit)
    have hlast : c.text.toList.reverse.takeWhile (· ≠ '\n') = [] := by
      obtain ⟨m, rfl⟩ := Nat.exists_eq_add_of_lt hlimit
      rw [htext, String.toList_ofList, List.reverse_replicate, List.replicate_succ,
        List.takeWhile_cons_of_neg (by decide)]
    have hfinish := finish?_of_cut_newlines hnewline (hcount.symm ▸ hcut) (by rw [hstart]; exact Nat.zero_le _)
    refine ⟨c, hstart, hstop, hcount.trans hn, shift?_before ?_, ?_, by decide⟩
    · rw [hstart]
      exact .inr ⟨rfl, Nat.lt_of_sub_pos Nat.two_pos⟩
    · rw [shift?_inside (by rw [hstart]) (by rw [hstop]), hfinish, hstart, hlast]
      rfl

end Change

end StructuralEditor
