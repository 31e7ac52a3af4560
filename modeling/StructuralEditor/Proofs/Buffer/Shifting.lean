import StructuralEditor.Proofs.Session.Regions

/-!
# Positions after a change

A position that a change moves stands, in the edited text, where the characters before it lead.

* `Buffer.Located.beginning` : the beginning of the edited text that leads to where an index has moved;
* `Buffer.shift_eq_after` : the shifted position is reached by that beginning;
* `Buffer.utf8Len_beginning_of_lt`, `Buffer.utf8Len_beginning_inside`, `Buffer.utf8Len_beginning_behind` : the bytes
  that it takes before the change, within it and behind it;
* `Buffer.shift?_offset` : what a shifted position is in the edited text.
-/

namespace StructuralEditor.Buffer

variable {b b' : Buffer} {l : Located} {p : Position} {i : Nat}

/-! ## The text before a shifted position -/

/-- The beginning of the edited text that leads to where index `i` has moved: what stood behind the edit stands behind
its text, and nothing is left of what it replaces. -/
def Located.beginning (l : Located) (text : List Char) (i : Nat) : List Char :=
  if i < l.start then text.take i
  else text.take l.start ++ l.edit.text.toList ++ (text.take i).drop l.stop

theorem start_record_le_iff (hl : l.Fits b) (hp : b.index? p = .ok i) : (l.record b.chars).start ≤ p ↔ l.start ≤ i :=
  index_le_index_iff hl.start hp

theorem le_stop_record_iff (hl : l.Fits b) (hp : b.index? p = .ok i) : p ≤ (l.record b.chars).stop ↔ i ≤ l.stop :=
  index_le_index_iff hp hl.stop

theorem shift_eq_after (hl : l.Fits b) (hp : b.index? p = .ok i) :
    (l.record b.chars).shift p = Position.zero.after (l.beginning b.chars i) := by
  have hafter := (index?_eq_ok_iff.mp hp).2
  have hstart := start_record_le_iff hl hp
  have hstop := le_stop_record_iff hl hp
  unfold Located.beginning
  by_cases hbefore : i < l.start
  · have hlt : p < (l.record b.chars).start := by
      by_contra hge
      exact absurd (hstart.mp (Position.not_lt.mp hge)) (by omega)
    rw [if_pos hbefore, hafter, Change.shift, if_pos hlt]
  rw [if_neg hbefore, Position.after_append, ← finish_record hl]
  by_cases hbehind : i ≤ l.stop
  · -- Everything within the edit collapses to the end of its text.
    have hge : ¬ p < (l.record b.chars).start := Position.not_lt.mpr (hstart.mpr (by omega))
    have hnil : (b.chars.take i).drop l.stop = [] := List.drop_eq_nil_of_le (by simp; omega)
    rw [hnil, Position.after_nil, Change.shift, if_neg hge, if_pos (hstop.mpr hbehind)]
  · have hread : p = (l.record b.chars).stop.after ((b.chars.take i).drop l.stop) := by
      rw [stop_record hl, ← Position.after_append, ← take_eq_append b.chars (by omega), hafter]
    rw [← Change.shift_after hl.ordered, ← hread]

theorem beginning_prefix (l : Located) (text : List Char) (i : Nat) :
    l.beginning text i <+: text.take l.start ++ l.edit.text.toList ++ text.drop l.stop := by
  unfold Located.beginning
  split
  · next hbefore =>
    rw [List.append_assoc]
    exact (List.take_prefix_take_left (Nat.le_of_lt hbefore)).trans (List.prefix_append _ _)
  · refine (List.prefix_append_right_inj _).mpr ?_
    rw [List.drop_take]
    exact List.take_prefix _ _

/-! ## Bytes -/

theorem utf8Len_beginning_of_lt (h : i < l.start) (text : List Char) :
    String.utf8Len (l.beginning text i) = String.utf8Len (text.take i) := by
  rw [Located.beginning, if_pos h]

theorem utf8Len_beginning_inside (h : l.start ≤ i) (h' : i ≤ l.stop) (text : List Char) :
    String.utf8Len (l.beginning text i) = String.utf8Len (text.take l.start) + l.edit.text.utf8ByteSize := by
  have hnil : (text.take i).drop l.stop = [] := List.drop_eq_nil_of_le (by simp; omega)
  rw [Located.beginning, if_neg (by omega), hnil, List.append_nil, String.utf8Len_append, String.utf8Len_toList]

theorem utf8Len_beginning_behind (hl : l.start ≤ l.stop) (h : l.stop < i) (text : List Char) :
    (l.record text).removed.utf8ByteSize ≤ String.utf8Len (text.take i) ∧
      String.utf8Len (l.beginning text i) =
        String.utf8Len (text.take i) - (l.record text).removed.utf8ByteSize + l.edit.text.utf8ByteSize := by
  have hread : String.utf8Len (text.take i) = String.utf8Len (text.take l.start) +
      (l.record text).removed.utf8ByteSize + String.utf8Len ((text.take i).drop l.stop) := by
    rw [Located.record, String.utf8ByteSize_ofList, ← String.utf8Len_append, ← take_eq_append text hl,
      ← String.utf8Len_append, ← take_eq_append text (Nat.le_of_lt h)]
  rw [Located.beginning, if_neg (by omega), String.utf8Len_append, String.utf8Len_append, String.utf8Len_toList, hread]
  omega

/-! ## The edited text -/

/-- A single edit leaves one record, and puts its text in place of what stands between its ends. -/
theorem exists_fits_of_apply {e : Edit} {changes : List Change} (h : b.apply [e] = .ok (b', changes)) :
    ∃ l : Located, l.edit = e ∧ l.Fits b ∧ changes = [l.record b.chars] ∧
      b'.chars = b.chars.take l.start ++ l.edit.text.toList ++ b.chars.drop l.stop := by
  obtain ⟨ls, hsorted, hfits, -, hchars, rfl⟩ := exists_located_of_apply h
  rw [sorted, List.mergeSort_singleton] at hsorted
  obtain ⟨l, rfl, hl⟩ := List.map_eq_singleton_iff.mp hsorted
  refine ⟨l, hl, hfits l (List.mem_singleton_self l), rfl, ?_⟩
  rw [hchars, spliced, spliced, List.drop_zero]

/-- The sums on the way to a shifted position are within the limit, if the text with what is put in is short. -/
theorem shift?_of_index? (hl : l.Fits b) (hp : b.index? p = .ok i)
    (hsize : b.text.length + l.edit.text.length < 2 ^ 31) :
    (l.record b.chars).shift? p = .ok ((l.record b.chars).shift p) := by
  have hlength : b.chars.length = b.text.length := String.length_toList
  obtain ⟨-, hshift⟩ := shift?_record (n := 2 ^ 31 - 1) (by decide) hl (by omega)
  rw [← (index?_eq_ok_iff.mp hp).2]
  refine hshift _ ?_
  rw [List.length_take]
  omega

theorem offset_shift (hl : l.Fits b) (hp : b.index? p = .ok i)
    (hchars : b'.chars = b.chars.take l.start ++ l.edit.text.toList ++ b.chars.drop l.stop) :
    b'.offset ((l.record b.chars).shift p) = .ok (String.utf8Len (l.beginning b.chars i)) := by
  obtain ⟨rest, hrest⟩ := beginning_prefix l b.chars i
  have hsplit := hchars.trans hrest.symm
  rw [shift_eq_after hl hp, offset_of_index? (index?_after hsplit), hsplit, List.take_left]

/-- After a single edit, every position of the text is shifted to one of the edited text: before the change its offset
stays, within the change it is that of the end of the new text, and behind it the bytes of what was removed are
exchanged for those of the new text. -/
theorem shift?_offset {b b' : Buffer} {e : Edit} {changes : List Change}
    (happly : b.apply [e] = .ok (b', changes)) (hsize : b.text.length + e.text.length < 2 ^ 31) :
    ∃ c, changes = [c] ∧ ∀ p n, b.offset p = .ok n → ∃ q n', c.shift? p = .ok q ∧ b'.offset q = .ok n' ∧
      (p < c.start → n' = n) ∧
      (c.start ≤ p → p ≤ c.stop → n' = b.offsetOf c.start + c.text.utf8ByteSize) ∧
      (c.stop < p → c.removed.utf8ByteSize ≤ n ∧ n' = n - c.removed.utf8ByteSize + c.text.utf8ByteSize) := by
  obtain ⟨l, rfl, hl, rfl, hchars⟩ := exists_fits_of_apply happly
  refine ⟨_, rfl, fun p n hn => ?_⟩
  obtain ⟨i, hp, rfl⟩ := offset_eq_ok_iff.mp hn
  have hshift := shift?_of_index? hl hp hsize
  have hstart := start_record_le_iff hl hp
  have hstop := le_stop_record_iff hl hp
  refine ⟨_, _, hshift, offset_shift hl hp hchars, fun hlt => ?_, fun hge hle => ?_, fun hgt => ?_⟩
  · refine utf8Len_beginning_of_lt (Nat.lt_of_not_le fun hle => ?_) _
    exact Position.not_lt.mpr (hstart.mpr hle) hlt
  · rw [utf8Len_beginning_inside (hstart.mp hge) (hstop.mp hle), ← offsetOf_of_index? hl.start]
    rfl
  · have hlt : l.stop < i := Nat.lt_of_not_le fun hle => Position.not_lt.mpr (hstop.mpr hle) hgt
    exact utf8Len_beginning_behind hl.start_le_stop hlt b.chars

/-- The ends of two lines are replaced by one text: the end of the second line moves up to the first, to the byte behind
as many as were put in less those removed. -/
theorem shift?_offset_joined :
    ∃ c q, (⟨"aλ\nbc"⟩ : Buffer).apply [⟨⟨0, 1⟩, ⟨1, 1⟩, "é "⟩] = .ok (⟨"aé c"⟩, [c]) ∧
      (⟨"aλ\nbc"⟩ : Buffer).offset ⟨1, 2⟩ = .ok 6 ∧ c.shift? ⟨1, 2⟩ = .ok q ∧
      (⟨"aé c"⟩ : Buffer).offset q = .ok 5 := by
  have hplan : (⟨"aλ\nbc"⟩ : Buffer).plan [⟨⟨0, 1⟩, ⟨1, 1⟩, "é "⟩] = .ok [⟨⟨⟨0, 1⟩, ⟨1, 1⟩, "é "⟩, 1, 4⟩] :=
    plan_of_pairwise (by decide +kernel) (by decide) rfl
  have happly : (⟨"aλ\nbc"⟩ : Buffer).apply [⟨⟨0, 1⟩, ⟨1, 1⟩, "é "⟩] =
      .ok (⟨"aé c"⟩, [⟨⟨0, 1⟩, ⟨1, 1⟩, "é ", "λ\nb"⟩]) :=
    ok_bind_iff.mpr ⟨_, hplan, by decide +kernel⟩
  have hoffset : (⟨"aλ\nbc"⟩ : Buffer).offset ⟨1, 2⟩ = .ok 6 := by decide +kernel
  obtain ⟨c, hc, hshift⟩ := shift?_offset happly (by decide +kernel)
  obtain rfl := List.singleton_inj.mp hc
  obtain ⟨q, n, hq, hn, -, -, hbehind⟩ := hshift ⟨1, 2⟩ 6 hoffset
  obtain ⟨-, rfl⟩ := hbehind (by decide)
  exact ⟨_, q, happly, hoffset, hq, hn⟩

end StructuralEditor.Buffer
