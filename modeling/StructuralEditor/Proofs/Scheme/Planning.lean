import Mathlib.Data.List.Basic
import StructuralEditor.Proofs.Scheme.Ownership
import StructuralEditor.Proofs.Text

/-!
# Plans hold what belongs to data

* `joinAll` : comments in a row as one, the stretch over all of them (`covers_of_joinAll`) with their lines
  (`lines_of_joinAll`);
* `commentsAt`, `unowned` : the comments that belong to the datum at a position, and those that belong to none;
* `CommentPlan.Holds`, `CommentPlan.holds_ofItems` : the plan of a text has, for each datum, the comments that belong to
  it as one.
-/

namespace StructuralEditor

theorem Comment.merge_assoc (a b c : Comment) : (a.merge b).merge c = a.merge (b.merge c) := by
  simp only [merge, Span.union_assoc, String.append_assoc]

def Comment.lines (c : Comment) : List String := (Text.pieces '\n' c.text.toList).map String.ofList

theorem Comment.lines_merge (a b : Comment) : (a.merge b).lines = a.lines ++ b.lines := by
  have htext : (a.merge b).text.toList = a.text.toList ++ '\n' :: b.text.toList := by
    simp [merge]
  rw [lines, htext, Text.pieces_append, List.map_append, lines, lines]

namespace Scheme

/-! ## Comments in a row -/

def joinAll (cs : List Comment) : Option Comment :=
  cs.foldl (fun before c => some (joinComments before c)) none

@[simp] theorem joinAll_nil : joinAll [] = none := rfl

theorem joinAll_concat (cs : List Comment) (c : Comment) :
    joinAll (cs ++ [c]) = some (joinComments (joinAll cs) c) := by
  rw [joinAll, List.foldl_concat, joinAll]

@[simp] theorem joinAll_singleton (c : Comment) : joinAll [c] = some c := rfl

theorem joinAll_append (cs ds : List Comment) :
    joinAll (cs ++ ds) = ((joinAll ds).map (joinComments (joinAll cs))).or (joinAll cs) := by
  induction ds using List.reverseRecOn with
  | nil => simp
  | append_singleton ds d ih =>
    rw [← List.append_assoc, joinAll_concat, joinAll_concat, ih]
    cases joinAll cs with
    | none => cases joinAll ds <;> rfl
    | some c =>
      cases joinAll ds with
      | none => rfl
      | some d' => exact congrArg some (Comment.merge_assoc c d' d)

theorem joinAll_eq_none_iff {cs : List Comment} : joinAll cs = none ↔ cs = [] := by
  cases cs using List.reverseRecOn with
  | nil => simp
  | append_singleton cs c => simp [joinAll_concat]

theorem joinAll_flatten (css : List (List Comment)) : joinAll (css.filterMap joinAll) = joinAll css.flatten := by
  induction css using List.reverseRecOn with
  | nil => rfl
  | append_singleton css cs ih =>
    rw [List.filterMap_append, List.flatten_append, List.flatten_singleton, joinAll_append, joinAll_append, ih]
    cases hcs : joinAll cs with
    | none => rw [List.filterMap_cons_none hcs, List.filterMap_nil, joinAll_nil]
    | some c => rw [List.filterMap_cons_some hcs, List.filterMap_nil, joinAll_singleton]

/-- What is kept when comments are merged holds of comments in a row. -/
theorem joinAll_induction {Q : List Comment → Comment → Prop} (hsingle : ∀ c, Q [c] c)
    (hmerge : ∀ cs c d, Q cs c → Q (cs ++ [d]) (c.merge d)) {cs : List Comment} {c : Comment}
    (h : joinAll cs = some c) : Q cs c := by
  induction cs using List.reverseRecOn generalizing c with
  | nil => cases h
  | append_singleton cs d ih =>
    rw [joinAll_concat] at h
    cases hcs : joinAll cs with
    | none =>
      rw [hcs] at h
      rw [joinAll_eq_none_iff.mp hcs]
      cases h
      exact hsingle d
    | some c' =>
      rw [hcs] at h
      cases h
      exact hmerge cs c' d (ih hcs)

theorem lines_of_joinAll {cs : List Comment} {c : Comment} (h : joinAll cs = some c) :
    c.lines = cs.flatMap Comment.lines := by
  refine joinAll_induction (Q := fun cs c => c.lines = cs.flatMap Comment.lines) (fun c => ?_) (fun cs c d hc => ?_) h
  · rw [List.flatMap_singleton]
  · rw [Comment.lines_merge, List.flatMap_append, List.flatMap_singleton, hc]

theorem covers_of_joinAll {cs : List Comment} {c : Comment} (h : joinAll cs = some c) :
    ∀ d ∈ cs, c.span.Covers d.span := by
  refine joinAll_induction (Q := fun cs c => ∀ d ∈ cs, c.span.Covers d.span) (fun c => ?_) (fun cs c d hc => ?_) h
  · simp [Span.Covers]
  · refine List.forall_mem_append.mpr ⟨fun e he => ?_, List.forall_mem_singleton.mpr ?_⟩
    · exact (Span.covers_union_left c.span d.span).trans (hc e he)
    · exact Span.covers_union_right c.span d.span

theorem ends_of_joinAll {cs : List Comment} {c : Comment} (h : joinAll cs = some c) :
    (∃ d ∈ cs, d.span.start = c.span.start) ∧ ∃ d ∈ cs, d.span.stop = c.span.stop := by
  refine joinAll_induction (Q := fun cs c => (∃ d ∈ cs, d.span.start = c.span.start) ∧
    ∃ d ∈ cs, d.span.stop = c.span.stop) (fun c => ?_) (fun cs c d hc => ?_) h
  · simp
  · obtain ⟨⟨x, hx, hstart⟩, y, hy, hstop⟩ := hc
    constructor
    · rcases le_total c.span.start d.span.start with hle | hle
      · exact ⟨x, List.mem_append_left _ hx, hstart.trans (min_eq_left hle).symm⟩
      · exact ⟨d, List.mem_append_right _ List.mem_cons_self, (min_eq_right hle).symm⟩
    · rcases le_total c.span.stop d.span.stop with hle | hle
      · exact ⟨d, List.mem_append_right _ List.mem_cons_self, (max_eq_right hle).symm⟩
      · exact ⟨y, List.mem_append_left _ hy, hstop.trans (max_eq_left hle).symm⟩

/-! ## Comments of a datum -/

/-- The comments that belong to the datum at the position. -/
def commentsAt (rs : List Remark) (p : Position) : List Comment :=
  (rs.filter fun r => r.owner.map Span.start = some p).map Remark.comment

def unowned (rs : List Remark) : List Comment :=
  (rs.filter fun r => r.owner = none).map Remark.comment

theorem mem_commentsAt_iff {rs : List Remark} {p : Position} {c : Comment} : c ∈ commentsAt rs p ↔ Belongs rs p c := by
  simp only [commentsAt, List.mem_map, List.mem_filter, decide_eq_true_eq, Option.map_eq_some_iff, Belongs]
  constructor
  · rintro ⟨⟨c, _⟩, ⟨hmem, o, rfl, hstart⟩, rfl⟩
    exact ⟨o, hmem, hstart⟩
  · rintro ⟨o, hmem, hstart⟩
    exact ⟨⟨c, some o⟩, ⟨hmem, o, rfl, hstart⟩, rfl⟩

theorem mem_unowned_iff {rs : List Remark} {c : Comment} : c ∈ unowned rs ↔ ⟨c, none⟩ ∈ rs := by
  simp only [unowned, List.mem_map, List.mem_filter, decide_eq_true_eq]
  constructor
  · rintro ⟨⟨c, _⟩, ⟨hmem, rfl⟩, rfl⟩
    exact hmem
  · intro hmem
    exact ⟨⟨c, none⟩, ⟨hmem, rfl⟩, rfl⟩

theorem commentsAt_append (rs rs' : List Remark) (p : Position) :
    commentsAt (rs ++ rs') p = commentsAt rs p ++ commentsAt rs' p := by
  simp [commentsAt]

theorem commentsAt_map (cs : List Comment) (owner : Option Span) (p : Position) :
    commentsAt (cs.map (⟨·, owner⟩)) p = if owner.map Span.start = some p then cs else [] := by
  have hmap : (cs.map fun c => (⟨c, owner⟩ : Remark)).map Remark.comment = cs := by
    rw [List.map_map]
    exact List.map_id cs
  by_cases h : owner.map Span.start = some p
  · rw [if_pos h, commentsAt, List.filter_eq_self.mpr, hmap]
    simp [Option.map_eq_some_iff.mp h]
  · rw [if_neg h, commentsAt, List.filter_eq_nil_iff.mpr, List.map_nil]
    rintro r hr
    obtain ⟨c, -, rfl⟩ := List.mem_map.mp hr
    simpa using h

theorem unowned_append (rs rs' : List Remark) : unowned (rs ++ rs') = unowned rs ++ unowned rs' := by
  simp [unowned]

namespace CommentPlan

/-- The plan has for each datum, once, the comments that belong to it as one. -/
structure Holds (plan : CommentPlan) (rs : List Remark) : Prop where
  distinct : (plan.entries.map Prod.fst).Nodup
  find : ∀ p, plan.find? p = joinAll (commentsAt rs p)

theorem holds_empty : Holds empty [] := ⟨.nil, fun _ => rfl⟩

theorem Holds.addPending {plan : CommentPlan} {rs : List Remark} (h : plan.Holds rs) (owner : Span)
    (cs : List Comment) :
    (plan.addPending owner.start (joinAll cs)).Holds (rs ++ cs.map (⟨·, some owner⟩)) := by
  have hfind : ∀ p, joinAll (commentsAt (rs ++ cs.map (⟨·, some owner⟩)) p) =
      if p = owner.start then joinAll (commentsAt rs p ++ cs) else joinAll (commentsAt rs p) := by
    intro p
    have hiff : (some owner).map Span.start = some p ↔ p = owner.start := by simp [eq_comm]
    rw [commentsAt_append, commentsAt_map]
    by_cases hp : p = owner.start
    · rw [if_pos hp, if_pos (hiff.mpr hp)]
    · rw [if_neg hp, if_neg (mt hiff.mp hp), List.append_nil]
  cases hcs : joinAll cs with
  | none =>
    obtain rfl := joinAll_eq_none_iff.mp hcs
    exact ⟨h.distinct, fun p => (h.find p).trans (by simp)⟩
  | some comment =>
    refine ⟨?_, fun p => ?_⟩
    · have hnotin : owner.start ∉ (plan.erase owner.start).entries.map Prod.fst := by simp [erase]
      have hsub : ((plan.erase owner.start).entries.map Prod.fst).Sublist (plan.entries.map Prod.fst) :=
        List.filter_sublist.map _
      exact List.nodup_cons.mpr ⟨hnotin, h.distinct.sublist hsub⟩
    · show (plan.add owner.start comment).find? p = _
      rw [find?_add, hfind, joinAll_append, hcs, h.find]
      by_cases hp : p = owner.start
      · rw [if_pos hp, if_pos hp, hp]
        rfl
      · rw [if_neg hp, if_neg hp, h.find]

open Item

/-- The remarks have been planned: the plan has all of them but the last ones, whose comments wait for a datum, or
else belong to what stands `behind` them. -/
def Settled (rs all : List Remark) (behind : Option Span) (last : Option Position) (after : Progress) : Prop :=
  ∃ done trailing behind', all = done ++ trailing.map (⟨·, behind'⟩) ∧ (∀ r ∈ done, r.owner ≠ none) ∧
    after.plan.Holds (rs ++ done) ∧ after.pending = joinAll trailing ∧ (behind = none → behind' = none) ∧
    ∀ p, behind.map Span.start = some (last.getD p) → behind'.map Span.start = some (after.last.getD p)

theorem Settled.cons {item : Item} {datum : Datum} (hdatum : item.datum? = some datum) {rest : List Item}
    {cs : List Comment} {rs : List Remark} {behind : Option Span} {last : Option Position} {after : Progress}
    (howned : ∀ r ∈ item.remarksIn, r.owner ≠ none)
    (h : Settled (rs ++ cs.map (⟨·, some item.span⟩) ++ item.remarksIn) (remarks (behind.map fun _ => item.span) rest)
      (behind.map fun _ => item.span) (some item.span.start) after) :
    Settled rs (cs.map (⟨·, (next? (item :: rest)).or behind⟩) ++ remarks behind (item :: rest)) behind last after := by
  obtain ⟨done, trailing, behind', hall, hdone, hholds, hpending, hnone, hlast⟩ := h
  have hnext : (next? (item :: rest)).or behind = some item.span := by cases item <;> first | rfl | cases hdatum
  have hremarks : remarks behind (item :: rest) =
      item.remarksIn ++ remarks (behind.map fun _ => item.span) rest := by cases item <;> first | rfl | cases hdatum
  rw [hnext, hremarks, hall]
  refine ⟨cs.map (⟨·, some item.span⟩) ++ item.remarksIn ++ done, trailing, behind', ?_, ?_, ?_, hpending, ?_, ?_⟩
  · simp only [List.append_assoc]
  · refine List.forall_mem_append.mpr ⟨List.forall_mem_append.mpr ⟨?_, howned⟩, hdone⟩
    simp
  · rwa [← List.append_assoc, ← List.append_assoc]
  · rintro rfl
    exact hnone rfl
  · intro p hp
    obtain ⟨owner, rfl, -⟩ := Option.map_eq_some_iff.mp hp
    exact hlast p rfl

mutual

/-- A datum takes the comments before it, and its parts take theirs. -/
theorem holds_followItem : ∀ (item : Item) {datum : Datum} {plan : CommentPlan} {rs : List Remark}
    (cs : List Comment) (last : Option Position), item.datum? = some datum → plan.Holds rs →
    (∀ r ∈ item.remarksIn, r.owner ≠ none) ∧
    ∃ plan', followItem ⟨plan, joinAll cs, last⟩ item = ⟨plan', none, some item.span.start⟩ ∧
      plan'.Holds (rs ++ cs.map (⟨·, some item.span⟩) ++ item.remarksIn)
  | .comment text span, _, _, _, _, _, hdatum, _ => by cases hdatum
  | .atom text span, _, plan, rs, cs, last, _, h | .string text span, _, plan, rs, cs, last, _, h => by
    refine ⟨by simp [remarksIn], _, by rw [followItem]; rfl, ?_⟩
    rw [remarksIn, List.append_nil]
    exact h.addPending span cs
  | .list parts span, _, plan, rs, cs, last, _, h => by
    obtain ⟨done, trailing, behind', hall, hdone, hholds, hpending, -, hlast⟩ :=
      settled_follow parts [] none (some span) (h.addPending span cs)
    obtain ⟨owner, rfl, hstart⟩ := Option.map_eq_some_iff.mp (hlast span.start rfl)
    rw [List.map_nil, List.nil_append] at hall
    rw [remarksIn, hall]
    refine ⟨?_, _, by rw [followItem]; rfl, ?_⟩
    · refine List.forall_mem_append.mpr ⟨hdone, ?_⟩
      simp
    · -- What waits at the end of the list belongs to its last datum, or to the list.
      have hadded := hholds.addPending owner trailing
      rw [hstart, ← hpending, List.append_assoc] at hadded
      exact hadded

/-- Comments wait for the next datum, those before the items with those among them. -/
theorem settled_follow : ∀ (items : List Item) {plan : CommentPlan} {rs : List Remark} (cs : List Comment)
    (last : Option Position) (behind : Option Span), plan.Holds rs →
    Settled rs (cs.map (⟨·, (next? items).or behind⟩) ++ remarks behind items) behind last
      (follow ⟨plan, joinAll cs, last⟩ items)
  | [], plan, rs, cs, last, behind, h => by
    rw [follow]
    exact ⟨[], cs, behind, by simp [next?], by simp, by rwa [List.append_nil], rfl, id, fun _ => id⟩
  | item :: rest, plan, rs, cs, last, behind, h => by
    have hfollow := fun datum (hdatum : item.datum? = some datum) => holds_followItem item cs last hdatum h
    cases item with
    | comment text span =>
      have hrest := settled_follow rest (cs ++ [⟨span, text⟩]) last behind h
      rw [follow, followItem]
      rw [joinAll_concat, List.map_append, List.append_assoc] at hrest
      exact hrest
    | atom text span | string text span | list parts span =>
      obtain ⟨howned, plan', hitem, hholds⟩ := hfollow _ rfl
      rw [follow, hitem]
      exact .cons rfl howned (settled_follow rest [] _ _ hholds)

end

/-- The plan of a text has, for each datum, the comments that belong to it; those that belong to none are left. -/
theorem holds_ofItems (items : List Item) : (ofItems items).1.Holds (remarks none items) ∧
    (ofItems items).2 = joinAll (unowned (remarks none items)) := by
  obtain ⟨done, trailing, behind', hall, hdone, hholds, hpending, hnone, -⟩ :=
    settled_follow items [] none none holds_empty
  obtain rfl := hnone rfl
  rw [List.map_nil, List.nil_append] at hall
  rw [List.nil_append] at hholds
  have hrest : ∀ p, commentsAt (remarks none items) p = commentsAt done p := by
    intro p
    rw [hall, commentsAt_append, commentsAt_map, if_neg (by simp), List.append_nil]
  have hunowned : unowned (remarks none items) = trailing := by
    have hnil : unowned done = [] := by simpa [unowned] using hdone
    rw [hall, unowned_append, hnil, List.nil_append, unowned, List.filter_eq_self.mpr (by simp), List.map_map]
    exact List.map_id trailing
  refine ⟨⟨hholds.distinct, fun p => ?_⟩, ?_⟩
  · rw [hrest]
    exact hholds.find p
  · rw [hunowned]
    exact hpending

end CommentPlan

end Scheme

end StructuralEditor
