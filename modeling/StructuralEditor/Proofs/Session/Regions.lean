import Mathlib.Data.List.Induction
import StructuralEditor.Proofs.Buffer.Batch
import StructuralEditor.Proofs.Buffer.Overflow
import StructuralEditor.Session.Focus

/-!
# Settled regions

The region of a change, moved along with every later change of its batch, is where the text of the change stands in
the final text.

* `Change.shift_after` : what is read behind the end of a change stands behind its text afterwards;
* `Buffer.spliceTo` : the text before the text of an edit, when a batch is carried out;
* `Buffer.foldl_shift_after` : where the changes before an edit move what is read from its start;
* `Buffer.foldlM_shift?_of_follow` : the sums on the way stay within the limit if the texts are short;
* `Buffer.settledRegions_slice` : what settled regions say about the final text.
-/

namespace StructuralEditor

/-! ## Positions -/

namespace Position

def Within (n : Nat) (p : Position) : Prop := p.line ≤ n ∧ p.column ≤ n

theorem within_after {text : List Char} {n : Nat} (h : text.length ≤ n) : (zero.after text).Within n := by
  induction text using List.reverseRecOn generalizing n with
  | nil => exact ⟨Nat.zero_le n, Nat.zero_le n⟩
  | append_singleton text c ih =>
    rw [List.length_append, List.length_singleton] at h
    obtain ⟨hline, hcolumn⟩ := ih (n := n - 1) (by omega)
    rw [after_append, after_cons, after_nil, advance]
    split
    · exact ⟨by simp only; omega, Nat.zero_le n⟩
    · exact ⟨by simp only; omega, by simp only; omega⟩

end Position

/-! ## One change -/

namespace Change

variable {c : Change}

/-- What is read behind the end of a change stands behind its text afterwards. -/
theorem shift_after (h : c.start ≤ c.stop) (text : List Char) :
    c.shift (c.stop.after text) = c.finish.after text := by
  by_cases htext : text = []
  · subst htext
    have hstart : ¬ c.stop < c.start := by simpa only [Position.not_lt] using h
    rw [Position.after_nil, Position.after_nil, shift, if_neg hstart, if_pos (Position.le_refl _)]
  · have hlt := Position.lt_after c.stop htext
    have hstart : ¬ c.stop.after text < c.start :=
      Position.not_lt.mpr (Position.le_trans h (Position.le_of_lt hlt))
    have hstop : ¬ c.stop.after text ≤ c.stop := by
      intro hle
      exact Position.lt_irrefl _ (Position.lt_of_lt_of_le hlt hle)
    rw [shift, if_neg hstart, if_neg hstop, Position.after_eq_down c.stop, Position.after_eq_down c.finish]
    unfold Position.down
    by_cases hline : (Position.zero.after text).line = 0
    · simp [hline]
      omega
    · simp [hline]
      omega

theorem finish?_of_within {n : Nat} (hn : 2 * n ≤ Text.limit32) (htext : c.text.length ≤ n) (h : c.finish.Within n) :
    c.finish? = .ok c.finish := by
  refine finish?_eq_ok (by omega) fun hover => ?_
  obtain ⟨hline, hcolumn⟩ := h
  rcases hover with ⟨hnewline, hover⟩ | ⟨hnewline, hover⟩
  · simp only [finish_of_line hnewline] at hcolumn
    omega
  · simp only [finish_of_newline hnewline] at hline
    omega

theorem shift?_of_within {n : Nat} {p : Position} (hn : 2 * n ≤ Text.limit32) (htext : c.text.length ≤ n)
    (hp : p.Within n) (h : c.finish.Within n) : c.shift? p = .ok (c.shift p) := by
  rcases lt_or_ge p c.start with hbefore | hfrom
  · rw [shift?_before hbefore, shift, if_pos hbefore]
  · obtain ⟨hline, hcolumn⟩ := h
    obtain ⟨hpline, hpcolumn⟩ := hp
    have hover : ¬ c.LandingOverflows c.finish p := by
      rintro ⟨-, hlines | ⟨-, hcolumns⟩⟩ <;> omega
    rw [(shift?_from hfrom (finish?_of_within hn htext ⟨hline, hcolumn⟩)).2 hover, shift, if_neg (not_lt_of_ge hfrom)]
    rfl

end Change

/-! ## Regions of a list of changes -/

namespace Region

theorem foldl_shift (later : List Change) (r : Region) :
    later.foldl shift r = ⟨later.foldl (fun p c => c.shift p) r.start, later.foldl (fun p c => c.shift p) r.stop,
      r.inserted⟩ := by
  induction later generalizing r with
  | nil => rfl
  | cons c later ih => exact ih (r.shift c)

theorem foldlM_shift?_concat {later : List Change} {r r' : Region} (h : later.foldlM shift? r = .ok r') (c : Change) :
    (later ++ [c]).foldlM shift? r = r'.shift? c := by
  rw [List.foldlM_append, h]
  exact bind_pure (r'.shift? c)

theorem shift?_of_ends {r : Region} {c : Change} (hstart : c.shift? r.start = .ok (c.shift r.start))
    (hstop : c.shift? r.stop = .ok (c.shift r.stop)) : r.shift? c = .ok (r.shift c) := by
  rw [shift?, hstart, hstop]
  rfl

end Region

theorem length_settledRegions (changes : List Change) : (settledRegions changes).length = changes.length := by
  induction changes with
  | nil => rfl
  | cons c later ih => simp [settledRegions, ih]

theorem getElem?_settledRegions (earlier : List Change) (c : Change) (later : List Change) :
    (settledRegions (earlier ++ c :: later))[earlier.length]? =
      some (later.foldl Region.shift (Region.ofChange c)) := by
  induction earlier with
  | nil => rfl
  | cons d earlier ih => exact ih

theorem settledRegions?_of_forall {changes : List Change}
    (h : ∀ earlier c later, changes = earlier ++ c :: later → c.finish? = .ok c.finish ∧
      later.foldlM Region.shift? (Region.ofChange c) = .ok (later.foldl Region.shift (Region.ofChange c))) :
    settledRegions? changes = .ok (settledRegions changes) := by
  induction changes with
  | nil => rfl
  | cons c later ih =>
    obtain ⟨hfinish, hshifted⟩ := h [] c later rfl
    have hrest := ih fun earlier d more hsplit => h (c :: earlier) d more (by rw [hsplit]; rfl)
    have hregion : Region.ofChange? c = .ok (Region.ofChange c) := by
      rw [Region.ofChange?, hfinish]
      rfl
    rw [settledRegions?, hregion, hrest]
    refine ok_bind_iff.mpr ⟨_, rfl, ok_bind_iff.mpr ⟨_, hshifted, rfl⟩⟩

/-! ## A batch in one text -/

namespace Buffer

/-- The text between two offsets, with the given stretches between them replaced. -/
def spliceTo (b : Buffer) (start : Nat) : List Edit → Nat → String
  | [], stop => b.between start stop
  | e :: rest, stop =>
    b.between start (b.offsetOf e.start) ++ e.text ++ b.spliceTo (b.offsetOf e.stop) rest stop

/-- The characters between two indices, with the given stretches between them replaced. -/
def splicedTo (text : List Char) : Nat → List Located → Nat → List Char
  | k, [], stop => (text.take stop).drop k
  | k, l :: rest, stop => (text.take l.start).drop k ++ l.edit.text.toList ++ splicedTo text l.stop rest stop

theorem spliced_append (text : List Char) (k : Nat) (before : List Located) (l : Located) (behind : List Located) :
    spliced text k (before ++ l :: behind) =
      splicedTo text k before l.start ++ l.edit.text.toList ++ spliced text l.stop behind := by
  induction before generalizing k with
  | nil => rfl
  | cons d before ih => simp only [List.cons_append, spliced, splicedTo, ih, List.append_assoc]

def insertedLength : List Edit → Nat
  | [] => 0
  | e :: rest => e.text.length + insertedLength rest

theorem insertedLength_append (edits others : List Edit) :
    insertedLength (edits ++ others) = insertedLength edits + insertedLength others := by
  induction edits with
  | nil => rw [List.nil_append, insertedLength, Nat.zero_add]
  | cons e edits ih => rw [List.cons_append, insertedLength, ih, insertedLength, Nat.add_assoc]

theorem insertedLength_eq_of_perm {edits others : List Edit} (h : edits.Perm others) :
    insertedLength edits = insertedLength others := by
  induction h with
  | nil => rfl
  | cons e _ ih => rw [insertedLength, ih, insertedLength]
  | swap e e' edits =>
    simp only [insertedLength]
    omega
  | trans _ _ ih ih' => exact ih.trans ih'

variable {b : Buffer} {before behind : List Located} {l : Located} {k : Nat}

theorem follow_of_append {n : Nat} (h : Follow n k (before ++ l :: behind)) :
    k ≤ l.start ∧ l.start ≤ l.stop ∧ Follow n l.stop behind := by
  induction before generalizing k with
  | nil => exact h
  | cons d before ih =>
    obtain ⟨hk, hd, hrest⟩ := h
    obtain ⟨hstart, hl, hbehind⟩ := ih hrest
    exact ⟨by omega, hl, hbehind⟩

theorem length_splicedTo {text : List Char} (h : Follow text.length k (before ++ l :: behind)) :
    k + (splicedTo text k before l.start).length ≤ text.length + insertedLength (before.map (·.edit)) := by
  induction before generalizing k with
  | nil =>
    obtain ⟨hk, hl, hbehind⟩ := h
    have hstop := hbehind.le
    simp only [splicedTo, List.length_drop, List.length_take]
    omega
  | cons d before ih =>
    obtain ⟨hk, hd, hrest⟩ := h
    have hrest' := ih hrest
    simp only [splicedTo, insertedLength, List.map_cons, List.length_append, List.length_drop, List.length_take,
      String.length_toList] at hrest' ⊢
    omega

theorem spliceTo_eq_splicedTo (hfits : ∀ a ∈ before ++ l :: behind, a.Fits b)
    (h : Follow b.chars.length k (before ++ l :: behind)) :
    b.spliceTo (String.utf8Len (b.chars.take k)) (before.map (·.edit)) (b.offsetOf l.edit.start) =
      String.ofList (splicedTo b.chars k before l.start) := by
  have hl := hfits l (by simp)
  induction before generalizing k with
  | nil =>
    have hgap := extract_take b.chars h.1
    rw [ofList_chars] at hgap
    rw [List.map_nil, spliceTo, splicedTo, offsetOf_of_index? hl.start, between, hgap]
  | cons d before ih =>
    obtain ⟨hk, hd, hrest⟩ := h
    have hfit := hfits d List.mem_cons_self
    have hgap := extract_take b.chars hk
    rw [ofList_chars] at hgap
    rw [List.map_cons, spliceTo, splicedTo, offsetOf_of_index? hfit.start, offsetOf_of_index? hfit.stop,
      ih (fun a ha => hfits a (List.mem_cons_of_mem d ha)) hrest, between, hgap, String.ofList_append,
      String.ofList_append, String.ofList_toList]

/-! ## Where the changes before an edit move it -/

theorem start_record (h : l.Fits b) : (l.record b.chars).start = Position.zero.after (b.chars.take l.start) :=
  (index?_eq_ok_iff.mp h.start).2.symm

theorem stop_record (h : l.Fits b) : (l.record b.chars).stop = Position.zero.after (b.chars.take l.stop) :=
  (index?_eq_ok_iff.mp h.stop).2.symm

theorem finish_record (h : l.Fits b) :
    (l.record b.chars).finish = Position.zero.after (b.chars.take l.start ++ l.edit.text.toList) := by
  rw [Change.finish, start_record h, Position.after_append]
  rfl

/-- The changes before an edit move what is read from its start behind everything that is spliced before it. -/
theorem foldl_shift_after (hfits : ∀ a ∈ before ++ l :: behind, a.Fits b)
    (h : Follow b.chars.length k (before ++ l :: behind)) (text : List Char) :
    (before.reverse.map (Located.record b.chars)).foldl (fun p c => c.shift p)
        (Position.zero.after (b.chars.take l.start ++ text)) =
      Position.zero.after (b.chars.take k ++ splicedTo b.chars k before l.start ++ text) := by
  induction before generalizing k with
  | nil =>
    rw [splicedTo, ← take_eq_append b.chars h.1]
    rfl
  | cons d before ih =>
    obtain ⟨hk, hd, hrest⟩ := h
    have hfit := hfits d List.mem_cons_self
    have hmoved := ih (fun a ha => hfits a (List.mem_cons_of_mem d ha)) hrest
    rw [List.reverse_cons, List.map_append, List.foldl_append, hmoved, List.append_assoc, Position.after_append,
      ← stop_record hfit]
    simp only [List.map_cons, List.map_nil, List.foldl_cons, List.foldl_nil]
    rw [Change.shift_after hfit.ordered, finish_record hfit, ← Position.after_append, splicedTo]
    nth_rewrite 1 [take_eq_append b.chars hk]
    simp only [List.append_assoc]

theorem foldl_region_shift (hfits : ∀ a ∈ before ++ l :: behind, a.Fits b)
    (h : Follow b.chars.length k (before ++ l :: behind)) :
    (before.reverse.map (Located.record b.chars)).foldl Region.shift (Region.ofChange (l.record b.chars)) =
      ⟨Position.zero.after (b.chars.take k ++ splicedTo b.chars k before l.start),
        Position.zero.after (b.chars.take k ++ splicedTo b.chars k before l.start ++ l.edit.text.toList),
        (l.record b.chars).isInsertion⟩ := by
  have hfit := hfits l (by simp)
  have hstart := foldl_shift_after hfits h []
  have hstop := foldl_shift_after hfits h l.edit.text.toList
  rw [List.append_nil, List.append_nil, ← start_record hfit] at hstart
  rw [← finish_record hfit] at hstop
  rw [Region.foldl_shift, ← hstart, ← hstop]
  rfl

/-- The sums for the change of an edit are within the limit, if the text with everything put in is short. -/
theorem shift?_record {n : Nat} (hn : 2 * n ≤ Text.limit32) (hl : l.Fits b)
    (hsize : b.chars.length + l.edit.text.length ≤ n) : (l.record b.chars).finish? = .ok (l.record b.chars).finish ∧
      ∀ text : List Char, text.length ≤ n → (l.record b.chars).shift? (Position.zero.after text) =
        .ok ((l.record b.chars).shift (Position.zero.after text)) := by
  have htext : (l.record b.chars).text.length ≤ n := (Nat.le_add_left _ _).trans hsize
  have hfinish : (l.record b.chars).finish.Within n := by
    rw [finish_record hl]
    refine Position.within_after ?_
    have hstart := hl.start_le_stop
    have hstop := hl.stop_le_length
    simp only [List.length_append, List.length_take, String.length_toList]
    omega
  exact ⟨Change.finish?_of_within hn htext hfinish,
    fun text hlength => Change.shift?_of_within hn htext (Position.within_after hlength) hfinish⟩

/-- The sums on the way to a settled region are within the limit, if the text with everything put in is short. -/
theorem foldlM_shift?_of_follow {n : Nat} (hn : 2 * n ≤ Text.limit32) (hfits : ∀ a ∈ before ++ l :: behind, a.Fits b)
    (h : Follow b.chars.length k (before ++ l :: behind))
    (hsize : b.chars.length + insertedLength ((before ++ [l]).map (·.edit)) ≤ n) :
    (before.reverse.map (Located.record b.chars)).foldlM Region.shift? (Region.ofChange (l.record b.chars)) =
      .ok ((before.reverse.map (Located.record b.chars)).foldl Region.shift (Region.ofChange (l.record b.chars))) := by
  induction before generalizing k with
  | nil => rfl
  | cons d before ih =>
    obtain ⟨hk, hd, hrest⟩ := h
    have hfits' : ∀ a ∈ before ++ l :: behind, a.Fits b := fun a ha => hfits a (List.mem_cons_of_mem d ha)
    have hlength := length_splicedTo hrest
    simp only [List.cons_append, List.map_cons, List.map_append, List.map_nil, insertedLength,
      insertedLength_append] at hsize
    obtain ⟨-, hshift⟩ := shift?_record hn (hfits d List.mem_cons_self) (by omega)
    have hshifted := ih hfits' hrest (by
      simp only [List.map_append, List.map_cons, List.map_nil, insertedLength, insertedLength_append]
      omega)
    rw [List.reverse_cons, List.map_append, List.map_cons, List.map_nil, Region.foldlM_shift?_concat hshifted,
      List.foldl_append, List.foldl_cons, List.foldl_nil, foldl_region_shift hfits' hrest]
    refine Region.shift?_of_ends (hshift _ ?_) (hshift _ ?_)
    · simp only [List.length_append, List.length_take]
      omega
    · simp only [List.length_append, List.length_take, String.length_toList]
      omega

/-! ## The batch as a whole -/

/-- A batch that is carried out has its edits at indices that follow each other, and splices the text there. -/
theorem exists_located_of_apply {b' : Buffer} {edits : List Edit} {changes : List Change}
    (h : b.apply edits = .ok (b', changes)) :
    ∃ ls : List Located, ls.map (·.edit) = b.sorted edits ∧ (∀ l ∈ ls, l.Fits b) ∧ Follow b.chars.length 0 ls ∧
      b'.chars = spliced b.chars 0 ls ∧ changes = ls.reverse.map (Located.record b.chars) := by
  obtain ⟨ls, hplan, h⟩ := ok_bind_iff.mp h
  obtain ⟨hacc, hsorted, hfits⟩ := accepts_of_plan hplan
  have hchain := hacc.apart
  rw [← hsorted, ← isChain_edit_iff hfits] at hchain
  have hfollow := follow_of_fits hfits hchain (Nat.zero_le _) fun l _ => Nat.zero_le l.start
  rw [performAll_reverse hfollow] at h
  obtain ⟨rfl, rfl⟩ := Prod.mk.inj (ok_pure_iff.mp h)
  exact ⟨ls, hsorted, hfits, hfollow, by simp [chars], rfl⟩

/-- The changes made before and after one of them belong to the edits behind and before it in the text. -/
theorem exists_split_of_records {text : List Char} {ls : List Located} {earlier later : List Change} {c : Change}
    (h : ls.reverse.map (Located.record text) = earlier ++ c :: later) :
    ∃ before l behind, ls = before ++ l :: behind ∧ earlier.length = behind.length ∧ c = l.record text ∧
      later = before.reverse.map (Located.record text) := by
  obtain ⟨ms, ns, hls, rfl, hns⟩ := List.map_eq_append_iff.mp h
  obtain ⟨l, os, rfl, rfl, rfl⟩ := List.map_eq_cons_iff.mp hns
  refine ⟨os.reverse, l, ms.reverse, ?_, by simp, rfl, by rw [List.reverse_reverse]⟩
  rw [← List.reverse_reverse ls, hls]
  simp

theorem insertedLength_sorted (b : Buffer) (edits : List Edit) :
    insertedLength (b.sorted edits) = insertedLength edits :=
  insertedLength_eq_of_perm (List.mergeSort_perm edits b.inOrder)

/-- No sum for the settled regions goes wrong, if the text with everything put in is short. -/
theorem settledRegions?_of_follow {ls : List Located} {n : Nat} (hn : 2 * n ≤ Text.limit32)
    (hfits : ∀ l ∈ ls, l.Fits b) (h : Follow b.chars.length 0 ls)
    (hsize : b.chars.length + insertedLength (ls.map (·.edit)) ≤ n) :
    settledRegions? (ls.reverse.map (Located.record b.chars)) =
      .ok (settledRegions (ls.reverse.map (Located.record b.chars))) := by
  refine settledRegions?_of_forall fun earlier c later hsplit => ?_
  obtain ⟨before, l, behind, rfl, -, rfl, rfl⟩ := exists_split_of_records hsplit
  rw [List.map_append, insertedLength_append, List.map_cons, insertedLength] at hsize
  constructor
  · exact (shift?_record hn (hfits l (by simp)) (by omega)).1
  · refine foldlM_shift?_of_follow hn hfits h ?_
    rw [List.map_append, insertedLength_append, List.map_cons, List.map_nil, insertedLength, insertedLength]
    omega

theorem settledRegions?_of_apply {b' : Buffer} {edits : List Edit} {changes : List Change}
    (happly : b.apply edits = .ok (b', changes)) (hsize : b.text.length + insertedLength edits < 2 ^ 31) :
    settledRegions? changes = .ok (settledRegions changes) := by
  obtain ⟨ls, hsorted, hfits, hfollow, -, rfl⟩ := exists_located_of_apply happly
  refine settledRegions?_of_follow (n := 2 ^ 31 - 1) (by decide) hfits hfollow ?_
  rw [hsorted, insertedLength_sorted, chars, String.length_toList]
  omega

/-- The settled region of every change of a batch lies in the final text, starts behind everything that is spliced
before the text of its edit, and holds exactly that text. -/
theorem settledRegions_slice {b b' : Buffer} {edits : List Edit} {changes : List Change}
    (happly : b.apply edits = .ok (b', changes)) (hsize : b.text.length + insertedLength edits < 2 ^ 31) :
    ∃ regions, settledRegions? changes = .ok regions ∧ regions.length = changes.length ∧
      ∀ i < changes.length, ∃ before e behind region,
        b.sorted edits = before ++ e :: behind ∧ behind.length = i ∧
        changes[i]? = some (b.record e) ∧ regions[i]? = some region ∧
        b'.text = b.spliceTo 0 before (b.offsetOf e.start) ++ e.text ++ b.splice (b.offsetOf e.stop) behind ∧
        b'.HasPosition region.start ∧ b'.HasPosition region.stop ∧
        b'.offset region.start = .ok (b.spliceTo 0 before (b.offsetOf e.start)).utf8ByteSize ∧
        b'.slice region.start region.stop = .ok (b.record e).text := by
  obtain ⟨ls, hsorted, hfits, hfollow, hfinal, rfl⟩ := exists_located_of_apply happly
  refine ⟨_, settledRegions?_of_apply happly hsize, length_settledRegions _, fun i hi => ?_⟩
  obtain ⟨earlier, c, later, hsplit, hearlier⟩ : ∃ earlier c later,
      ls.reverse.map (Located.record b.chars) = earlier ++ c :: later ∧ earlier.length = i :=
    ⟨_, _, _, by rw [← List.drop_eq_getElem_cons hi, List.take_append_drop], List.length_take_of_le hi.le⟩
  obtain ⟨before, l, behind, rfl, hlength, rfl, rfl⟩ := exists_split_of_records hsplit
  have hl := hfits l (by simp)
  have hedits : b.sorted edits = before.map (·.edit) ++ l.edit :: behind.map (·.edit) := by
    rw [← hsorted, List.map_append, List.map_cons]
  rw [spliced_append] at hfinal
  have hhead := spliceTo_eq_splicedTo hfits hfollow
  rw [List.take_zero, String.utf8Len_nil] at hhead
  have hrest := splice_eq_spliced (fun a ha => hfits a (by simp [ha])) (follow_of_append hfollow).2.2
  rw [← offsetOf_of_index? hl.stop] at hrest
  have hregion := getElem?_settledRegions earlier (l.record b.chars) (before.reverse.map (Located.record b.chars))
  rw [← hsplit, hearlier, foldl_region_shift hfits hfollow, List.take_zero, List.nil_append] at hregion
  refine ⟨before.map (·.edit), l.edit, behind.map (·.edit), _, hedits, ?_, ?_, hregion, ?_,
    hasPosition_after (hfinal.trans (List.append_assoc _ _ _)), hasPosition_after hfinal, ?_, ?_⟩
  · rw [List.length_map, ← hlength, hearlier]
  · rw [hsplit, ← hearlier, ← record_eq hl]
    simp
  · rw [← ofList_chars, hfinal, hhead, hrest, String.ofList_append, String.ofList_append, String.ofList_toList]
  · rw [offset_of_index? (index?_after (hfinal.trans (List.append_assoc _ _ _))), hfinal, List.append_assoc,
      List.take_left, hhead, String.utf8ByteSize_ofList]
  · rw [slice_after hfinal, String.ofList_toList]
    rfl

/-- An insertion with a newline, the deletion that starts there and an insertion where that ends: the last text is
moved through both boundaries of the deletion. -/
theorem settledRegions_slice_touching :
    ∃ changes regions region,
      (⟨"ab\ncd"⟩ : Buffer).apply
          [⟨⟨0, 1⟩, ⟨0, 1⟩, "x\ny"⟩, ⟨⟨0, 1⟩, ⟨1, 1⟩, ""⟩, ⟨⟨1, 1⟩, ⟨1, 1⟩, "é"⟩] = .ok (⟨"ax\nyéd"⟩, changes) ∧
        settledRegions? changes = .ok regions ∧ regions[0]? = some region ∧
        (⟨"ax\nyéd"⟩ : Buffer).slice region.start region.stop = .ok "é" := by
  have hplan : (⟨"ab\ncd"⟩ : Buffer).plan
        [⟨⟨0, 1⟩, ⟨0, 1⟩, "x\ny"⟩, ⟨⟨0, 1⟩, ⟨1, 1⟩, ""⟩, ⟨⟨1, 1⟩, ⟨1, 1⟩, "é"⟩] =
      .ok [⟨⟨⟨0, 1⟩, ⟨0, 1⟩, "x\ny"⟩, 1, 1⟩, ⟨⟨⟨0, 1⟩, ⟨1, 1⟩, ""⟩, 1, 4⟩, ⟨⟨⟨1, 1⟩, ⟨1, 1⟩, "é"⟩, 4, 4⟩] :=
    plan_of_pairwise (by decide +kernel) (by decide) rfl
  have happly : (⟨"ab\ncd"⟩ : Buffer).apply
        [⟨⟨0, 1⟩, ⟨0, 1⟩, "x\ny"⟩, ⟨⟨0, 1⟩, ⟨1, 1⟩, ""⟩, ⟨⟨1, 1⟩, ⟨1, 1⟩, "é"⟩] =
      .ok (⟨"ax\nyéd"⟩,
        [⟨⟨1, 1⟩, ⟨1, 1⟩, "é", ""⟩, ⟨⟨0, 1⟩, ⟨1, 1⟩, "", "b\nc"⟩, ⟨⟨0, 1⟩, ⟨0, 1⟩, "x\ny", ""⟩]) :=
    ok_bind_iff.mpr ⟨_, hplan, by decide +kernel⟩
  obtain ⟨regions, hregions, -, hregion⟩ := settledRegions_slice happly (by decide +kernel)
  obtain ⟨before, e, behind, region, -, -, hrecord, hregion, -, -, -, -, hslice⟩ := hregion 0 (by decide)
  rw [← Option.some.inj hrecord] at hslice
  exact ⟨_, regions, region, happly, hregions, hregion, hslice⟩

end Buffer

end StructuralEditor
