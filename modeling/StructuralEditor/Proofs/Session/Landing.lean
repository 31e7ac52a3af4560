import StructuralEditor.Proofs.Scheme.SameSpans
import StructuralEditor.Proofs.Session.Regions
import StructuralEditor.Proofs.Session.Spacing
import StructuralEditor.Proofs.Session.Visibility

/-!
# Where the focus lands

Edits are carried out from the end of the text to its start, so the last change that puts text in is that of the first
text in document order, and the first edit in document order stays where it is.

* `mem_settledRegions_iff`, `find?_settledRegions` : the settled regions, and the last of them with text;
* `Buffer.FirstText`, `Buffer.settledSpan` : the first text that a batch puts in, and where it stands in the end;
* `Buffer.defaultFocus_of_firstText`, `Buffer.defaultFocus_of_removals` : the default focus, by the edits of a batch;
* `Session.commit?_eq_ok_of_length` : short texts are edited as with unbounded coordinates;
* `Buffer.Lands`, `Session.Reachable.lands` : the default focus is on what was typed, or before what was removed.
-/

namespace StructuralEditor

/-! ## The last text put in -/

theorem settledRegions_append (earlier later : List Change) :
    ∃ moved, settledRegions (earlier ++ later) = moved ++ settledRegions later := by
  induction earlier with
  | nil => exact ⟨[], rfl⟩
  | cons c earlier ih =>
    obtain ⟨moved, hmoved⟩ := ih
    exact ⟨(earlier ++ later).foldl Region.shift (Region.ofChange c) :: moved, congrArg (_ :: ·) hmoved⟩

/-- A settled region is that of a change, moved along with the changes after it. -/
theorem mem_settledRegions_iff {changes : List Change} {r : Region} : r ∈ settledRegions changes ↔
    ∃ earlier c later, changes = earlier ++ c :: later ∧ r = later.foldl Region.shift (Region.ofChange c) := by
  constructor
  · intro h
    induction changes with
    | nil => cases h
    | cons c later ih =>
      rcases List.mem_cons.mp h with rfl | h
      · exact ⟨[], c, later, rfl, rfl⟩
      · obtain ⟨earlier, d, more, rfl, hr⟩ := ih h
        exact ⟨c :: earlier, d, more, rfl, hr⟩
  · rintro ⟨earlier, c, later, rfl, rfl⟩
    obtain ⟨moved, hmoved⟩ := settledRegions_append earlier (c :: later)
    rw [hmoved]
    exact List.mem_append_right moved List.mem_cons_self

theorem inserted_foldl_shift (later : List Change) (c : Change) :
    (later.foldl Region.shift (Region.ofChange c)).inserted = c.isInsertion := by
  rw [Region.foldl_shift]
  rfl

/-- From the end on, the first region with text is that of the last change that puts text in. -/
theorem find?_settledRegions (earlier : List Change) {later : List Change} {c : Change} (hc : c.isInsertion = true)
    (hlater : ∀ d ∈ later, d.isInsertion = false) :
    (settledRegions (earlier ++ c :: later)).reverse.find? (·.inserted) =
      some (later.foldl Region.shift (Region.ofChange c)) := by
  obtain ⟨moved, hmoved⟩ := settledRegions_append earlier (c :: later)
  refine List.find?_eq_some_iff_append.mpr ⟨(inserted_foldl_shift later c).trans hc,
    (settledRegions later).reverse, moved.reverse, ?_, fun r hr => ?_⟩
  · rw [hmoved, settledRegions, List.reverse_append, List.reverse_cons, List.append_assoc]
    rfl
  · obtain ⟨before, d, behind, rfl, rfl⟩ := mem_settledRegions_iff.mp (List.mem_reverse.mp hr)
    rw [inserted_foldl_shift, hlater d (by simp)]
    rfl

/-! ## The changes of a batch -/

namespace Buffer

variable {b b' : Buffer} {edits before behind : List Edit} {e : Edit} {changes : List Change}

/-- In document order the text of `e` is the first one that the batch puts in: the edits before it only remove. -/
structure FirstText (b : Buffer) (edits before : List Edit) (e : Edit) (behind : List Edit) : Prop where
  sorted : b.sorted edits = before ++ e :: behind
  removals : ∀ r ∈ before, r.text = ""
  text : e.text ≠ ""

/-- Where the text of an edit stands in the final text, behind everything that is spliced before it. -/
def settledSpan (b : Buffer) (before : List Edit) (e : Edit) : Span :=
  let head := b.spliceTo 0 before (b.offsetOf e.start)
  ⟨Position.zero.after head.toList, Position.zero.after (head.toList ++ e.text.toList)⟩

theorem mem_sorted_iff : e ∈ b.sorted edits ↔ e ∈ edits := (List.mergeSort_perm edits b.inOrder).mem_iff

theorem removals_or_firstText (b : Buffer) (edits : List Edit) :
    (∀ e ∈ edits, e.text = "") ∨ ∃ before e behind, b.FirstText edits before e behind := by
  cases hfind : (b.sorted edits).find? (·.text ≠ "") with
  | none =>
    refine .inl fun e he => ?_
    simpa using List.find?_eq_none.mp hfind e (mem_sorted_iff.mpr he)
  | some e =>
    obtain ⟨htext, before, behind, hsorted, hbefore⟩ := List.find?_eq_some_iff_append.mp hfind
    exact .inr ⟨before, e, behind, hsorted, fun r hr => by simpa using hbefore r hr, by simpa using htext⟩

theorem splice_append (b : Buffer) (k : Nat) (before : List Edit) (e : Edit) (behind : List Edit) :
    b.splice k (before ++ e :: behind) =
      b.spliceTo k before (b.offsetOf e.start) ++ e.text ++ b.splice (b.offsetOf e.stop) behind := by
  induction before generalizing k with
  | nil => rfl
  | cons d before ih => simp only [List.cons_append, splice, spliceTo, ih, String.append_assoc]

theorem isInsertion_record (text : List Char) (l : Located) :
    (l.record text).isInsertion = !l.edit.text.isEmpty := rfl

/-- The text is spliced, and of its changes the last one that puts text in leaves it where it stands in the end. -/
theorem FirstText.settled (hfirst : b.FirstText edits before e behind) (happly : b.apply edits = .ok (b', changes)) :
    b'.text = b.spliceTo 0 before (b.offsetOf e.start) ++ e.text ++ b.splice (b.offsetOf e.stop) behind ∧
    (settledRegions changes).reverse.find? (·.inserted) =
      some ⟨(b.settledSpan before e).start, (b.settledSpan before e).stop, true⟩ := by
  obtain ⟨ls, hsorted, hfits, hfollow, hfinal, rfl⟩ := exists_located_of_apply happly
  have htext := splice_eq_spliced hfits hfollow
  rw [List.take_zero, String.utf8Len_nil, hsorted, hfirst.sorted, splice_append, ← hfinal, ofList_chars] at htext
  refine ⟨htext.symm, ?_⟩
  obtain ⟨front, back, rfl, rfl, hback⟩ := List.map_eq_append_iff.mp (hsorted.trans hfirst.sorted)
  obtain ⟨l, rest, rfl, rfl, rfl⟩ := List.map_eq_cons_iff.mp hback
  have hhead := spliceTo_eq_splicedTo hfits hfollow
  rw [List.take_zero, String.utf8Len_nil] at hhead
  have hl : (l.record b.chars).isInsertion = true := by
    simpa [isInsertion_record] using hfirst.text
  have hfront : ∀ c ∈ front.reverse.map (Located.record b.chars), c.isInsertion = false := by
    intro c hc
    obtain ⟨a, ha, rfl⟩ := List.mem_map.mp hc
    have hempty := hfirst.removals a.edit (List.mem_map_of_mem (List.mem_reverse.mp ha))
    simp [isInsertion_record, hempty]
  have hfind := find?_settledRegions (rest.reverse.map (Located.record b.chars)) hl hfront
  rw [foldl_region_shift hfits hfollow, hl, List.take_zero, List.nil_append] at hfind
  rw [settledSpan, hhead, String.toList_ofList, ← hfind]
  simp

/-- After a batch that puts text in, the focus is sought where its first text stands. -/
theorem defaultFocus_of_firstText (hfirst : b.FirstText edits before e behind)
    (happly : b.apply edits = .ok (b', changes)) (t : Tree) :
    defaultFocus changes t =
      (t.exactly? (b.settledSpan before e).start (b.settledSpan before e).stop <|>
        t.before? (b.settledSpan before e).stop) := by
  simp only [defaultFocus, focusOf, (hfirst.settled happly).2]

theorem start_le_of_follow {first : Located} {ls : List Located} (hfits : ∀ l ∈ first :: ls, l.Fits b)
    (hfollow : Follow b.chars.length 0 (first :: ls)) : ∀ l ∈ first :: ls, first.edit.start ≤ l.edit.start := by
  intro l hl
  obtain ⟨front, back, hsplit⟩ := List.append_of_mem hl
  have hfrom : Follow b.chars.length first.start (first :: ls) := ⟨le_rfl, hfollow.2⟩
  rw [hsplit] at hfrom
  exact (index_le_index_iff (hfits first List.mem_cons_self).start (hfits l hl).start).mpr (follow_of_append hfrom).1

/-- Wherever texts come to stand, it is not before the first edit in document order. -/
theorem start_le_of_mem_settledRegions {first : Located} {ls : List Located} (hfits : ∀ l ∈ first :: ls, l.Fits b)
    (hfollow : Follow b.chars.length 0 (first :: ls)) {r : Region}
    (hr : r ∈ settledRegions ((first :: ls).reverse.map (Located.record b.chars))) : first.edit.start ≤ r.start := by
  have hle : ∀ text, first.edit.start ≤ Position.zero.after (b.chars.take first.start ++ text) := by
    intro text
    have hstart : first.edit.start = _ := start_record (hfits first List.mem_cons_self)
    rw [Position.after_append, ← hstart]
    exact Position.le_after _ text
  obtain ⟨earlier, c, later, hsplit, rfl⟩ := mem_settledRegions_iff.mp hr
  obtain ⟨front, l, back, hls, -, rfl, rfl⟩ := exists_split_of_records hsplit
  rw [hls] at hfits hfollow
  rw [foldl_region_shift hfits hfollow]
  cases front with
  | nil =>
    obtain ⟨rfl, -⟩ := List.cons.inj hls
    simpa [splicedTo] using hle []
  | cons d front =>
    obtain ⟨rfl, -⟩ := List.cons.inj hls
    simpa [splicedTo] using hle (first.edit.text.toList ++ splicedTo b.chars first.stop front l.start)

theorem min?_settledRegions (happly : b.apply edits = .ok (b', changes)) :
    ((settledRegions changes).map (·.start)).min? = (edits.map (·.start)).min? := by
  obtain ⟨ls, hsorted, hfits, hfollow, -, rfl⟩ := exists_located_of_apply happly
  have hmem : ∀ e, e ∈ edits ↔ ∃ l ∈ ls, l.edit = e := fun e => by
    rw [← mem_sorted_iff (b := b), ← hsorted, List.mem_map]
  cases ls with
  | nil =>
    have hnil : edits = [] := List.eq_nil_iff_forall_not_mem.mpr fun e he => by simpa using (hmem e).mp he
    rw [hnil]
    rfl
  | cons first ls =>
    have hregions : ((settledRegions ((first :: ls).reverse.map (Located.record b.chars))).map (·.start)).min? =
        some first.edit.start := by
      refine List.min?_eq_some_iff.mpr ⟨?_, fun p hp => ?_⟩
      · refine List.mem_map.mpr ⟨Region.ofChange (first.record b.chars), mem_settledRegions_iff.mpr ?_, rfl⟩
        exact ⟨ls.reverse.map (Located.record b.chars), first.record b.chars, [], by simp, rfl⟩
      · obtain ⟨r, hr, rfl⟩ := List.mem_map.mp hp
        exact start_le_of_mem_settledRegions hfits hfollow hr
    have hedits : (edits.map (·.start)).min? = some first.edit.start := by
      refine List.min?_eq_some_iff.mpr ⟨?_, fun p hp => ?_⟩
      · exact List.mem_map_of_mem ((hmem first.edit).mpr ⟨first, List.mem_cons_self, rfl⟩)
      · obtain ⟨e, he, rfl⟩ := List.mem_map.mp hp
        obtain ⟨l, hl, rfl⟩ := (hmem e).mp he
        exact start_le_of_follow hfits hfollow l hl
    rw [hregions, hedits]

/-- After a batch that only removes, the focus is sought before the first edit. -/
theorem defaultFocus_of_removals (hquiet : ∀ e ∈ edits, e.text = "") (happly : b.apply edits = .ok (b', changes))
    (t : Tree) : defaultFocus changes t = ((edits.map (·.start)).min?.bind t.before? <|> t.firstRoot?) := by
  have hnone : (settledRegions changes).reverse.find? (·.inserted) = none := by
    refine List.find?_eq_none.mpr fun r hr => ?_
    obtain ⟨ls, hsorted, -, -, -, rfl⟩ := exists_located_of_apply happly
    obtain ⟨earlier, c, later, hsplit, rfl⟩ := mem_settledRegions_iff.mp (List.mem_reverse.mp hr)
    obtain ⟨front, l, back, rfl, -, rfl, rfl⟩ := exists_split_of_records hsplit
    have hl : l.edit ∈ b.sorted edits := by simp [← hsorted]
    rw [inserted_foldl_shift, isInsertion_record, hquiet l.edit (mem_sorted_iff.mp hl)]
    decide
  simp only [defaultFocus, focusOf, hnone, min?_settledRegions happly]

/-- Where the focus lands after a batch, in the tree of the final text: on the outermost node that is just the first
text put in; or else on the last node that starts before the end of it; or, if no text is put in, on the last node that
starts before the first edit, or else on the first root. -/
inductive Lands (b : Buffer) (edits : List Edit) (b' : Buffer) (t : Tree) : Option Nat → Prop
  | typed {before behind : List Edit} {e : Edit} {n : Nat} (first : b.FirstText edits before e behind)
    (final : b'.text = b.spliceTo 0 before (b.offsetOf e.start) ++ e.text ++ b.splice (b.offsetOf e.stop) behind)
    (outermost : t.Outermost (b.settledSpan before e) n) : Lands b edits b' t (some n)
  | beside {before behind : List Edit} {e : Edit} (first : b.FirstText edits before e behind)
    (final : b'.text = b.spliceTo 0 before (b.offsetOf e.start) ++ e.text ++ b.splice (b.offsetOf e.stop) behind)
    (missing : ∀ n ∈ t.nodes, t.span n ≠ b.settledSpan before e) :
    Lands b edits b' t (t.startingBefore (b.settledSpan before e).stop).getLast?
  | removed (removals : ∀ e ∈ edits, e.text = "") :
    Lands b edits b' t
      (((edits.map (·.start)).min?.bind fun p => (t.startingBefore p).getLast?) <|> t.firstRoot?)

theorem lands_of_apply (happly : b.apply edits = .ok (b', changes)) {t : Tree} (hb : t.Built) (hu : t.Unshared)
    (horder : t.InOrder) : Lands b edits b' t (defaultFocus changes t) := by
  rcases removals_or_firstText b edits with hquiet | ⟨before, e, behind, hfirst⟩
  · rw [defaultFocus_of_removals hquiet happly, funext horder.before?_eq]
    exact .removed hquiet
  · obtain ⟨hfinal, -⟩ := hfirst.settled happly
    rw [defaultFocus_of_firstText hfirst happly]
    cases hfound : t.exactly? (b.settledSpan before e).start (b.settledSpan before e).stop with
    | none =>
      rw [horder.before?_eq]
      exact .beside hfirst hfinal (Tree.exactly?_eq_none_iff.mp hfound)
    | some n => exact .typed hfirst hfinal (horder.outermost_of_exactly? hb hu hfound)

end Buffer

/-! ## Sessions -/

namespace Tree

variable {t u : Tree}

theorem Relabelled.span_eq (h : t.Relabelled u) : t.span = u.span := by
  funext id
  have hid := congrArg (Option.map (·.span)) (h.node id)
  rw [Option.map_map, Option.map_map] at hid
  exact congrArg (Option.getD · (Span.empty Position.zero)) hid

theorem InOrder.of_relabelled (h : t.InOrder) (hrelabelled : t.Relabelled u) : u.InOrder := by
  have hdescendants : t.descendants = u.descendants := hrelabelled.sameKinds.descendants_eq
  refine ⟨?_, ?_⟩
  · rw [← hrelabelled.nodes, ← hrelabelled.span_eq]
    exact h.starts
  · rw [← hrelabelled.nodes, ← hrelabelled.span_eq, ← hdescendants]
    exact h.chains

end Tree

namespace Session

section Committing

variable [Hasher] {depth : Nat} {s s' : Session Buffer}

theorem commit?_eq_ok_of_length {edits : List Edit} (hsize : s.text.length + Buffer.insertedLength edits < 2 ^ 31)
    (hint : Tree → FocusChoice) : s.commit? edits hint = .ok (s.commit edits hint) := by
  refine commit?_eq_ok (fun changes hlive => ?_) hint
  exact Buffer.settledRegions?_of_apply (apply_buffer.mp (Prod.ext rfl hlive)) hsize

theorem Reachable.of_commit (h : s.Reachable depth) {edits : List Edit} {hint : Tree → FocusChoice}
    {answer : Except CommitError Committed} (hcommit : s.commit edits hint = (s', answer)) : s'.Reachable depth := by
  obtain ⟨source, opened, operations, hopen, rfl⟩ := h
  refine ⟨source, opened, operations ++ [.commit edits hint], hopen, ?_⟩
  rw [run, List.foldl_append]
  exact congrArg Prod.fst hcommit

theorem Reachable.inOrder (h : s.Reachable depth) : s.tree.InOrder := by
  obtain ⟨serial, t, hparse, hrelabelled⟩ := h.coherent.relabelled
  exact (Scheme.inOrder_of_parse hparse).of_relabelled hrelabelled.symm

/-- After a batch with the default focus, the sums for it are within the limit if the texts are short. Its target is on
what was typed first in the text, or before what was removed, and the focus is for that target. -/
theorem Reachable.lands (hs : s.Reachable depth) {edits : List Edit} {hint : Tree → FocusChoice}
    {committed : Committed} (hcommit : s.commit edits hint = (s', .ok committed))
    (hdefault : hint s'.tree = .fallback) (hsize : s.text.length + Buffer.insertedLength edits < 2 ^ 31) :
    ∃ target, defaultFocus? committed.changes s'.tree = .ok target ∧ s'.FocusedFor target ∧
      Buffer.Lands s.buffer edits s'.buffer s'.tree target := by
  have hs' := hs.of_commit hcommit
  have hmarked := hs'.marked
  obtain ⟨parsed, -, -, hpublish⟩ := publish_of_commit hcommit
  obtain ⟨-, happly, -⟩ := accepted_of_commit hcommit
  have hregions := Buffer.settledRegions?_of_apply happly hsize
  have hfocused := focusedFor_of_publish hpublish hmarked.built hmarked.unshared hs'.arises.focused.full
  rw [hdefault] at hfocused
  refine ⟨defaultFocus committed.changes s'.tree, by rw [defaultFocus?, hregions]; rfl, hfocused, ?_⟩
  exact Buffer.lands_of_apply happly hmarked.built hmarked.unshared hs'.inOrder

end Committing

/-- An expression is taken out of a body and the one behind it is typed anew, before a third edit: the focus is on the
body, which has become just what was typed first. -/
theorem Reachable.lands_body : ∃ (s s' : Session Buffer) (edits : List Edit) (committed : Committed),
    edits = [⟨⟨0, 7⟩, ⟨0, 9⟩, ""⟩, ⟨⟨0, 10⟩, ⟨0, 11⟩, "y"⟩, ⟨⟨1, 3⟩, ⟨1, 4⟩, "4"⟩] ∧ s.Reachable defaultDepth ∧
    s.commit edits (fun _ => .fallback) = (s', .ok committed) ∧ s.text = "(when x 1 2)\n(g 3)" ∧
    s.text.length + Buffer.insertedLength edits < 2 ^ 31 ∧ s'.text = "(when x y)\n(g 4)" ∧
    s'.tree.span 2 = ⟨⟨0, 8⟩, ⟨0, 9⟩⟩ ∧ defaultFocus? committed.changes s'.tree = .ok (some 2) ∧
    s'.FocusedFor (some 2) ∧ Buffer.Lands s.buffer edits s'.buffer s'.tree (some 2) := by
  have hplan : (⟨"(when x 1 2)\n(g 3)"⟩ : Buffer).plan
        [⟨⟨0, 7⟩, ⟨0, 9⟩, ""⟩, ⟨⟨0, 10⟩, ⟨0, 11⟩, "y"⟩, ⟨⟨1, 3⟩, ⟨1, 4⟩, "4"⟩] =
      .ok [⟨⟨⟨0, 7⟩, ⟨0, 9⟩, ""⟩, 7, 9⟩, ⟨⟨⟨0, 10⟩, ⟨0, 11⟩, "y"⟩, 10, 11⟩, ⟨⟨⟨1, 3⟩, ⟨1, 4⟩, "4"⟩, 16, 17⟩] :=
    Buffer.plan_of_pairwise (by decide +kernel) (by decide) rfl
  have happly : (⟨"(when x 1 2)\n(g 3)"⟩ : Buffer).apply
        [⟨⟨0, 7⟩, ⟨0, 9⟩, ""⟩, ⟨⟨0, 10⟩, ⟨0, 11⟩, "y"⟩, ⟨⟨1, 3⟩, ⟨1, 4⟩, "4"⟩] =
      .ok (⟨"(when x y)\n(g 4)"⟩,
        [⟨⟨1, 3⟩, ⟨1, 4⟩, "4", "3"⟩, ⟨⟨0, 10⟩, ⟨0, 11⟩, "y", "2"⟩, ⟨⟨0, 7⟩, ⟨0, 9⟩, "", " 1"⟩]) :=
    ok_bind_iff.mpr ⟨_, hplan, by decide +kernel⟩
  have hok : ∃ s ∈ (openOn (Scheme.parse defaultDepth) (⟨"(when x 1 2)\n(g 3)"⟩ : Buffer)).toOption,
      ∃ parsed ∈ (s.parser s.serial "(when x y)\n(g 4)").toOption, s.text = "(when x 1 2)\n(g 3)" ∧
        (s.tree.reconcile (parsed.withDepth s.tree.depth)).1.span 2 = ⟨⟨0, 8⟩, ⟨0, 9⟩⟩ ∧
        defaultFocus? [⟨⟨1, 3⟩, ⟨1, 4⟩, "4", "3"⟩, ⟨⟨0, 10⟩, ⟨0, 11⟩, "y", "2"⟩, ⟨⟨0, 7⟩, ⟨0, 9⟩, "", " 1"⟩]
          (s.tree.reconcile (parsed.withDepth s.tree.depth)).1 = .ok (some 2) := by decide +kernel
  obtain ⟨s, hopen, parsed, hparsed, htext, hspan, hfocus⟩ := hok
  rw [mem_toOption_iff] at hopen hparsed
  have hs : s.Reachable defaultDepth := ⟨_, s, [], hopen, rfl⟩
  rw [← show s.buffer = _ from congrArg Buffer.mk htext] at happly
  obtain ⟨s', committed, hcommit, htext', hpublished⟩ := exists_published happly hparsed fun _ => .fallback
  obtain ⟨-, happly', -⟩ := accepted_of_commit hcommit
  obtain ⟨-, hchanges⟩ := Prod.mk.inj (Except.ok.inj (happly.symm.trans happly'))
  rw [← hpublished.tree] at hspan hfocus
  rw [hchanges] at hfocus
  have hsize : s.text.length + Buffer.insertedLength
      [⟨⟨0, 7⟩, ⟨0, 9⟩, ""⟩, ⟨⟨0, 10⟩, ⟨0, 11⟩, "y"⟩, ⟨⟨1, 3⟩, ⟨1, 4⟩, "4"⟩] < 2 ^ 31 := by
    rw [htext]
    decide +kernel
  obtain ⟨target, htarget, hfocused, hlands⟩ := hs.lands hcommit rfl hsize
  obtain rfl := Except.ok.inj (htarget.symm.trans hfocus)
  exact ⟨s, s', _, committed, rfl, hs, hcommit, htext, hsize, htext', hspan, hfocus, hfocused, hlands⟩

end Session

end StructuralEditor
