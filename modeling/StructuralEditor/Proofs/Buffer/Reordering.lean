import Mathlib.Data.List.Chain
import StructuralEditor.Proofs.Buffer.Batch

/-!
# The order in which a batch lists its edits

* `filter_mergeSort`, `mergeSort_eq_of_ties` : sorting keeps ties in order, and nothing else of the order before;
* `Buffer.Reordered` : the same edits in another order, but insertions at the same position in the same;
* `Buffer.sorted_eq_of_reordered` : of an accepted batch, only insertions at the same position are ties;
* `Buffer.apply_of_reordered` : so both batches are refused, or both do the same.
-/

namespace StructuralEditor

/-! ## Ties -/

section Sorting

variable {α : Type} {le : α → α → Bool}

def ties (le : α → α → Bool) (a b : α) : Bool := le a b && le b a

theorem ties_iff {a b : α} : ties le a b = true ↔ le a b = true ∧ le b a = true := by
  rw [ties, Bool.and_eq_true]

/-- Sorted lists are the same if they have the same ties in the same order. -/
theorem eq_of_filter_ties_eq (hrefl : ∀ a, le a a = true) {as bs : List α} (has : as.Pairwise fun a b => le a b = true)
    (hbs : bs.Pairwise fun a b => le a b = true) (hperm : as.Perm bs)
    (h : ∀ a ∈ as, as.filter (ties le a) = bs.filter (ties le a)) : as = bs := by
  induction as generalizing bs with
  | nil => exact hperm.nil_eq
  | cons a as ih =>
    cases bs with
    | nil => exact absurd hperm.symm.nil_eq (by simp)
    | cons b bs =>
      -- Each of the two heads is a member of both lists, so neither comes before the other.
      have hab : le a b = true := by
        rcases List.mem_cons.mp (hperm.symm.subset List.mem_cons_self) with rfl | hb
        · exact hrefl b
        · exact (List.pairwise_cons.mp has).1 b hb
      have hba : le b a = true := by
        rcases List.mem_cons.mp (hperm.subset List.mem_cons_self) with rfl | ha
        · exact hrefl a
        · exact (List.pairwise_cons.mp hbs).1 a ha
      have hhead := h a List.mem_cons_self
      rw [List.filter_cons_of_pos (ties_iff.mpr ⟨hrefl a, hrefl a⟩), List.filter_cons_of_pos (ties_iff.mpr ⟨hab, hba⟩)]
        at hhead
      obtain rfl := (List.cons.inj hhead).1
      refine congrArg (a :: ·) (ih has.of_cons hbs.of_cons hperm.cons_inv fun c hc => ?_)
      have hrest := h c (List.mem_cons_of_mem a hc)
      by_cases hca : ties le c a = true
      · rw [List.filter_cons_of_pos hca, List.filter_cons_of_pos hca] at hrest
        exact (List.cons.inj hrest).2
      · rwa [List.filter_cons_of_neg hca, List.filter_cons_of_neg hca] at hrest

variable (htrans : ∀ a b c, le a b = true → le b c = true → le a c = true)
  (htotal : ∀ a b, (le a b || le b a) = true)

include htrans htotal

/-- Sorting keeps members in order of which each may come before each other. -/
theorem filter_mergeSort {p : α → Bool} (hp : ∀ a b, p a = true → p b = true → le a b = true) (as : List α) :
    (as.mergeSort le).filter p = as.filter p := by
  have hpairwise : (as.filter p).Pairwise fun a b => le a b = true :=
    List.pairwise_of_forall_mem_list fun a ha b hb => hp a b (List.mem_filter.mp ha).2 (List.mem_filter.mp hb).2
  have hsublist : (as.filter p).Sublist ((as.mergeSort le).filter p) := by
    have hsorted := List.sublist_mergeSort htrans htotal hpairwise List.filter_sublist
    simpa using hsorted.filter p
  exact (hsublist.eq_of_length ((List.mergeSort_perm as le).symm.filter p).length_eq).symm

theorem mergeSort_eq_of_ties {as bs : List α} (hperm : as.Perm bs)
    (h : ∀ a ∈ as, as.filter (ties le a) = bs.filter (ties le a)) : as.mergeSort le = bs.mergeSort le := by
  have hrefl : ∀ a, le a a = true := fun a => by simpa using htotal a a
  have hties : ∀ a b c, ties le a b = true → ties le a c = true → le b c = true := by
    intro a b c hb hc
    exact htrans b a c (ties_iff.mp hb).2 (ties_iff.mp hc).1
  refine eq_of_filter_ties_eq hrefl (List.pairwise_mergeSort htrans htotal as)
    (List.pairwise_mergeSort htrans htotal bs)
    ((List.mergeSort_perm as le).trans (hperm.trans (List.mergeSort_perm bs le).symm)) fun a ha => ?_
  rw [filter_mergeSort htrans htotal (hties a), filter_mergeSort htrans htotal (hties a)]
  exact h a (List.mem_mergeSort.mp ha)

end Sorting

/-! ## Batches in another order -/

/-- The edit takes nothing away, and puts its text in at the position. -/
def Edit.insertsAt (e : Edit) (p : Position) : Bool := e.start = p ∧ e.stop = p

namespace Buffer

variable {b : Buffer} {edits edits' : List Edit}

/-- The batches have the same edits, and those that take nothing away come in the same order at each position. -/
structure Reordered (edits edits' : List Edit) : Prop where
  perm : edits.Perm edits'
  insertions : ∀ p, edits.filter (·.insertsAt p) = edits'.filter (·.insertsAt p)

theorem Reordered.symm (h : Reordered edits edits') : Reordered edits' edits :=
  ⟨h.perm.symm, fun p => (h.insertions p).symm⟩

theorem inOrder_trans (e f g : Edit) (hef : b.inOrder e f = true) (hfg : b.inOrder f g = true) :
    b.inOrder e g = true := by
  simp only [inOrder, Bool.or_eq_true, Bool.and_eq_true, decide_eq_true_eq, beq_iff_eq] at *
  omega

theorem inOrder_total (e f : Edit) : (b.inOrder e f || b.inOrder f e) = true := by
  simp only [inOrder, Bool.or_eq_true, Bool.and_eq_true, decide_eq_true_eq, beq_iff_eq]
  omega

theorem ties_inOrder_iff {e f : Edit} : ties b.inOrder e f = true ↔
    b.offsetOf e.start = b.offsetOf f.start ∧ b.offsetOf e.stop = b.offsetOf f.stop := by
  simp only [ties_iff, inOrder, Bool.or_eq_true, Bool.and_eq_true, decide_eq_true_eq, beq_iff_eq]
  omega

theorem eq_of_offsetOf_eq {p q : Position} (hp : b.HasPosition p) (hq : b.HasPosition q)
    (h : b.offsetOf p = b.offsetOf q) : p = q := by
  obtain ⟨i, hi⟩ := hasPosition_iff.mp hp
  obtain ⟨j, hj⟩ := hasPosition_iff.mp hq
  have hij : i = j :=
    Nat.le_antisymm ((offsetOf_le_iff hi hj).mp h.le) ((offsetOf_le_iff hj hi).mp h.ge)
  rw [← (index?_eq_ok_iff.mp hi).2, ← (index?_eq_ok_iff.mp hj).2, hij]

theorem offsetOf_mono {p q : Position} (hp : b.HasPosition p) (hq : b.HasPosition q) (h : p ≤ q) :
    b.offsetOf p ≤ b.offsetOf q := by
  obtain ⟨i, hi⟩ := hasPosition_iff.mp hp
  obtain ⟨j, hj⟩ := hasPosition_iff.mp hq
  exact (offsetOf_le_iff hi hj).mpr ((index_le_index_iff hi hj).mp h)

/-- What ties with an insertion is an insertion at the same position. -/
theorem filter_ties_of_insertion
    (hwithin : ∀ e ∈ edits, e.start ≤ e.stop ∧ b.HasPosition e.start ∧ b.HasPosition e.stop) {e : Edit}
    (he : b.HasPosition e.start) (hempty : e.start = e.stop) :
    edits.filter (ties b.inOrder e) = edits.filter (·.insertsAt e.start) := by
  refine List.filter_congr fun f hf => ?_
  obtain ⟨-, hstart, hstop⟩ := hwithin f hf
  rw [Bool.eq_iff_iff, ties_inOrder_iff, Edit.insertsAt, decide_eq_true_eq, ← hempty]
  constructor
  · rintro ⟨h, h'⟩
    exact ⟨(eq_of_offsetOf_eq he hstart h).symm, (eq_of_offsetOf_eq he hstop h').symm⟩
  · rintro ⟨h, h'⟩
    rw [h, h']
    exact ⟨rfl, rfl⟩

/-- In an accepted batch each edit ends before every later one starts, not only before the next. -/
theorem Accepts.pairwise (h : b.Accepts edits) :
    (b.sorted edits).Pairwise fun e f => b.offsetOf e.stop ≤ b.offsetOf f.start := by
  have hforward : ∀ e ∈ b.sorted edits, b.offsetOf e.start ≤ b.offsetOf e.stop := by
    intro e he
    obtain ⟨hle, hstart, hstop⟩ := h.within e (List.mem_mergeSort.mp he)
    exact offsetOf_mono hstart hstop hle
  -- Along the chain the offsets only grow if each edit itself goes forward, so that is part of the relation.
  let ahead : Edit → Edit → Prop := fun e f =>
    b.offsetOf e.stop ≤ b.offsetOf f.start ∧ b.offsetOf f.start ≤ b.offsetOf f.stop
  have : Trans ahead ahead ahead := ⟨fun hef hfg => ⟨by omega, hfg.2⟩⟩
  have hchain : (b.sorted edits).IsChain ahead :=
    h.apart.imp_of_mem_imp fun e f _ hf hef => ⟨hef, hforward f hf⟩
  exact hchain.pairwise.imp And.left

/-- Nothing ties with an edit that takes something away: the two would overlap. -/
theorem Accepts.length_filter_ties (h : b.Accepts edits) {e : Edit} (he : e ∈ edits) (hne : e.start ≠ e.stop) :
    (edits.filter (ties b.inOrder e)).length ≤ 1 := by
  obtain ⟨hle, hstart, hstop⟩ := h.within e he
  have hlt : b.offsetOf e.start < b.offsetOf e.stop := by
    refine lt_of_le_of_ne (offsetOf_mono hstart hstop hle) fun heq => ?_
    exact hne (eq_of_offsetOf_eq hstart hstop heq)
  have hsame := (List.mergeSort_perm edits b.inOrder).symm.filter (ties b.inOrder e)
  have hpairwise := h.pairwise.filter (ties b.inOrder e)
  rw [hsame.length_eq]
  change ((b.sorted edits).filter (ties b.inOrder e)).length ≤ 1
  rcases hties : (b.sorted edits).filter (ties b.inOrder e) with _ | ⟨f, _ | ⟨g, rest⟩⟩
  · exact Nat.zero_le 1
  · exact Nat.le_refl 1
  · have hmem : ∀ x ∈ f :: g :: rest, ties b.inOrder e x = true :=
      fun x hx => (List.mem_filter.mp (hties ▸ hx)).2
    have hf := ties_inOrder_iff.mp (hmem f (by simp))
    have hg := ties_inOrder_iff.mp (hmem g (by simp))
    rw [hties] at hpairwise
    have hfg := (List.pairwise_cons.mp hpairwise).1 g (by simp)
    omega

theorem eq_of_perm_of_length_le_one {α : Type} {as bs : List α} (h : as.Perm bs) (hlength : as.length ≤ 1) :
    as = bs := by
  match as, hlength with
  | [], _ => exact h.nil_eq
  | [a], _ => exact (List.perm_singleton.mp h.symm).symm

theorem sorted_eq_of_reordered (hacc : b.Accepts edits) (h : Reordered edits edits') :
    b.sorted edits = b.sorted edits' := by
  refine mergeSort_eq_of_ties inOrder_trans inOrder_total h.perm fun e he => ?_
  by_cases hempty : e.start = e.stop
  · have hstart := (hacc.within e he).2.1
    have hwithin' := fun f hf => hacc.within f (h.perm.symm.subset hf)
    rw [filter_ties_of_insertion hacc.within hstart hempty, filter_ties_of_insertion hwithin' hstart hempty]
    exact h.insertions e.start
  · exact eq_of_perm_of_length_le_one (h.perm.filter _) (hacc.length_filter_ties he hempty)

/-- A batch that can be planned is planned in the same way in another order. -/
theorem plan_of_reordered {ls : List Located} (hplan : b.plan edits = .ok ls) (h : Reordered edits edits') :
    b.plan edits' = .ok ls := by
  obtain ⟨hacc, hsorted, hfits⟩ := accepts_of_plan hplan
  have hsame := sorted_eq_of_reordered hacc h
  have hacc' : b.Accepts edits' :=
    ⟨fun e he => hacc.within e (h.perm.symm.subset he), hsame ▸ hacc.apart⟩
  obtain ⟨ls', hplan'⟩ := exists_plan hacc'
  obtain ⟨-, hsorted', hfits'⟩ := accepts_of_plan hplan'
  have hlocated := mapM_locate_eq_ok_iff.mpr ⟨hsorted, hfits⟩
  have hlocated' := mapM_locate_eq_ok_iff.mpr ⟨hsorted'.trans hsame.symm, hfits'⟩
  rw [hplan', Except.ok.inj (hlocated'.symm.trans hlocated)]

/-- Two batches with the same edits, in which those that take nothing away come in the same order at each position, are
both refused and leave the text alone, or both make the same text of it by the same changes. -/
theorem apply_of_reordered (b : Buffer) {edits edits' : List Edit} (h : Reordered edits edits') :
    (∃ e e', TextBuffer.apply b edits = (b, .error e) ∧ TextBuffer.apply b edits' = (b, .error e')) ∨
      ∃ b' changes, TextBuffer.apply b edits = (b', .ok changes) ∧ TextBuffer.apply b edits' = (b', .ok changes) := by
  have hrefused : ∀ {edits e}, b.plan edits = .error e → TextBuffer.apply b edits = (b, .error e) := by
    intro edits e hplan
    have happly : b.apply edits = .error e := by
      rw [apply, hplan]
      rfl
    simp only [TextBuffer.apply, happly]
  cases hplan : b.plan edits with
  | error e =>
    cases hplan' : b.plan edits' with
    | error e' => exact .inl ⟨e, e', hrefused hplan, hrefused hplan'⟩
    | ok ls => cases hplan.symm.trans (plan_of_reordered hplan' h.symm)
  | ok ls =>
    have hcarried : ∀ {edits}, b.plan edits = .ok ls → TextBuffer.apply b edits =
        (⟨String.ofList (performAll ls.reverse b.chars).1⟩, .ok (performAll ls.reverse b.chars).2) := by
      intro edits hplan
      have happly : b.apply edits = .ok (⟨String.ofList (performAll ls.reverse b.chars).1⟩,
          (performAll ls.reverse b.chars).2) := by
        rw [apply, hplan]
        rfl
      simp only [TextBuffer.apply, happly]
    exact .inr ⟨_, _, hcarried hplan, hcarried (plan_of_reordered hplan h)⟩

/-- Two insertions at the start of a deletion, which is listed before them or behind them. -/
theorem apply_of_reordered_touching :
    let x : Edit := ⟨⟨0, 1⟩, ⟨0, 1⟩, "x"⟩
    let y : Edit := ⟨⟨0, 1⟩, ⟨0, 1⟩, "y"⟩
    let cut : Edit := ⟨⟨0, 1⟩, ⟨0, 2⟩, ""⟩
    Reordered [x, y, cut] [cut, x, y] ∧
      TextBuffer.apply (⟨"abc"⟩ : Buffer) [cut, x, y] =
        (⟨"axyc"⟩, .ok [⟨⟨0, 1⟩, ⟨0, 2⟩, "", "b"⟩, ⟨⟨0, 1⟩, ⟨0, 1⟩, "y", ""⟩, ⟨⟨0, 1⟩, ⟨0, 1⟩, "x", ""⟩]) := by
  intro x y cut
  have hreordered : Reordered [x, y, cut] [cut, x, y] := by
    have hperm : ([x, y] ++ [cut]).Perm ([cut] ++ [x, y]) := List.perm_append_comm
    refine ⟨hperm, fun p => ?_⟩
    have hcut : cut.insertsAt p = false := by
      rw [Edit.insertsAt, decide_eq_false_iff_not]
      rintro ⟨rfl, h⟩
      cases h
    simp only [List.filter_cons, hcut, Bool.false_eq_true, if_false, List.filter_nil]
  have hplan : (⟨"abc"⟩ : Buffer).plan [x, y, cut] = .ok [⟨x, 1, 1⟩, ⟨y, 1, 1⟩, ⟨cut, 1, 2⟩] :=
    plan_of_pairwise (by decide +kernel) (by decide) rfl
  have happly : TextBuffer.apply (⟨"abc"⟩ : Buffer) [x, y, cut] =
      (⟨"axyc"⟩, .ok [⟨⟨0, 1⟩, ⟨0, 2⟩, "", "b"⟩, ⟨⟨0, 1⟩, ⟨0, 1⟩, "y", ""⟩, ⟨⟨0, 1⟩, ⟨0, 1⟩, "x", ""⟩]) := by
    simp only [TextBuffer.apply, apply, hplan]
    decide +kernel
  refine ⟨hreordered, ?_⟩
  rcases apply_of_reordered ⟨"abc"⟩ hreordered with ⟨e, e', h, -⟩ | ⟨b', changes, h, h'⟩
  · have hanswer := congrArg Prod.snd (happly.symm.trans h)
    cases hanswer
  · exact h'.trans (h.symm.trans happly)

end Buffer

end StructuralEditor
