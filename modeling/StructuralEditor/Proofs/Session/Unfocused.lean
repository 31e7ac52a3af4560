import StructuralEditor.Proofs.Session.Landing

/-!
# Batches after which nothing has the focus

* `Tree.InOrder.before?_eq_none_iff` : what is before a position is missed only if every node starts behind it;
* `Buffer.TypedAhead`, `Buffer.defaultFocus_eq_none_iff` : a batch has no default focus if the tree is empty, or
  if nothing in it starts before the end of the first text put in;
* `Session.Reachable.focus_eq_none_iff` : so it is with the focus after a batch.
-/

namespace StructuralEditor

theorem Tree.InOrder.before?_eq_none_iff {t : Tree} (h : t.InOrder) {p : Position} :
    t.before? p = none ↔ ∀ n ∈ t.nodes, p ≤ (t.span n).start := by
  rw [h.before?_eq, List.getLast?_eq_none_iff, Tree.startingBefore, List.filter_eq_nil_iff]
  simp only [decide_eq_true_eq, not_lt]

namespace Buffer

variable {b b' : Buffer} {edits before behind : List Edit} {e : Edit} {changes : List Change} {t : Tree}

/-- Text is put in, and every node starts behind the first of it. -/
def TypedAhead (b : Buffer) (edits : List Edit) (t : Tree) : Prop :=
  ∃ before e behind, b.FirstText edits before e behind ∧
    ∀ n ∈ t.nodes, (b.settledSpan before e).stop ≤ (t.span n).start

theorem FirstText.settledSpan_start_lt_stop (h : b.FirstText edits before e behind) :
    (b.settledSpan before e).start < (b.settledSpan before e).stop := by
  have htext : e.text.toList ≠ [] := fun hnil => h.text (String.toList_eq_nil_iff.mp hnil)
  simp only [settledSpan, Position.after_append]
  exact Position.lt_after _ htext

/-- A node that is just the first text starts before its end, so that only the nodes before the end decide. -/
theorem FirstText.defaultFocus_eq_none_iff (hfirst : b.FirstText edits before e behind)
    (happly : b.apply edits = .ok (b', changes)) (h : t.InOrder) :
    defaultFocus changes t = none ↔ ∀ n ∈ t.nodes, (b.settledSpan before e).stop ≤ (t.span n).start := by
  rw [defaultFocus_of_firstText hfirst happly, Option.orElse_eq_none, Tree.exactly?_eq_none_iff,
    h.before?_eq_none_iff]
  refine and_iff_right_of_imp fun hbehind n hn hspan => ?_
  have hstart := hspan ▸ hbehind n hn
  exact absurd hfirst.settledSpan_start_lt_stop (not_lt.mpr hstart)

theorem defaultFocus_eq_none_iff_of_removals (hquiet : ∀ e ∈ edits, e.text = "")
    (happly : b.apply edits = .ok (b', changes)) (hb : t.Built) :
    defaultFocus changes t = none ↔ t.isEmpty = true := by
  rw [defaultFocus_of_removals hquiet happly, Option.orElse_eq_none, ← hb.head?_nodes, List.head?_eq_none_iff,
    Tree.isEmpty_iff_nodes]
  refine and_iff_right_of_imp fun hnodes => Option.bind_eq_none_iff.mpr fun p _ => ?_
  simp [Tree.before?, hnodes]

/-- After a batch there is nothing to focus in an empty tree, and in any other only if text is put in before all of
it. -/
theorem defaultFocus_eq_none_iff (happly : b.apply edits = .ok (b', changes)) (hb : t.Built) (h : t.InOrder) :
    defaultFocus changes t = none ↔ t.isEmpty = true ∨ b.TypedAhead edits t := by
  rcases removals_or_firstText b edits with hquiet | ⟨before, e, behind, hfirst⟩
  · rw [defaultFocus_eq_none_iff_of_removals hquiet happly hb]
    refine (or_iff_left ?_).symm
    rintro ⟨before, e, behind, hfirst, -⟩
    have he : e ∈ b.sorted edits := by simp [hfirst.sorted]
    exact hfirst.text (hquiet e (mem_sorted_iff.mp he))
  · constructor
    · intro hnone
      exact .inr ⟨before, e, behind, hfirst, (hfirst.defaultFocus_eq_none_iff happly h).mp hnone⟩
    · rintro (hempty | ⟨before', e', behind', hfirst', hbehind⟩)
      · refine (hfirst.defaultFocus_eq_none_iff happly h).mpr fun n hn => ?_
        rw [Tree.isEmpty_iff_nodes.mp hempty] at hn
        cases hn
      · exact (hfirst'.defaultFocus_eq_none_iff happly h).mpr hbehind

end Buffer

namespace Session

variable {depth : Nat} {s s' : Session Buffer}

theorem FocusedFor.eq_none_iff {s : Session Buffer} {target : Option Nat} (h : s.FocusedFor target) :
    s.focus = none ↔ target = none := by
  cases h with
  | nothing focus => simp [focus]
  | itself visible focus => simp [focus]
  | covered topmost focus => simp [focus]

section Committing

variable [Hasher] {edits : List Edit} {hint : Tree → FocusChoice}

variable {committed : Committed} (hs : s.Reachable depth)
  (hcommit : s.commit edits hint = (s', .ok committed)) (hdefault : hint s'.tree = .fallback)

include hs hcommit hdefault

theorem Reachable.focusedFor_default :
    committed.focus = s'.focus ∧ s'.FocusedFor (defaultFocus committed.changes s'.tree) := by
  have hs' := hs.of_commit hcommit
  obtain ⟨parsed, -, -, hpublish⟩ := publish_of_commit hcommit
  have hrefocused := refocused_of_publish hpublish hs'.marked hs'.arises.focused.full
  have hfocused := hrefocused.focusedFor
  rw [hdefault] at hfocused
  exact ⟨hrefocused.answered, hfocused⟩

/-- After a batch with the default focus nothing has the focus if the tree is empty, and else exactly if text is put in
before all of the tree. -/
theorem Reachable.focus_eq_none_iff : committed.focus = s'.focus ∧
    (s'.focus = none ↔ s'.tree.isEmpty = true ∨ s.buffer.TypedAhead edits s'.tree) := by
  obtain ⟨hanswer, hfocused⟩ := hs.focusedFor_default hcommit hdefault
  obtain ⟨-, happly, -⟩ := accepted_of_commit hcommit
  have hs' := hs.of_commit hcommit
  have hbuilt := hs'.marked.built
  refine ⟨hanswer, ?_⟩
  rw [hfocused.eq_none_iff]
  exact Buffer.defaultFocus_eq_none_iff happly hbuilt hs'.inOrder

end Committing

theorem exists_blank_ahead : ∃ (s s' : Session Buffer) (committed : Committed),
    s.Reachable defaultDepth ∧ s.commit [⟨⟨0, 0⟩, ⟨0, 0⟩, " "⟩] (fun _ => .fallback) = (s', .ok committed) ∧
    s.text = "x" ∧ s'.text = " x" ∧ s'.tree.nodes = [0] ∧ committed.focus = none := by
  have happly : (⟨"x"⟩ : Buffer).apply [⟨⟨0, 0⟩, ⟨0, 0⟩, " "⟩] =
      .ok (⟨" x"⟩, [⟨⟨0, 0⟩, ⟨0, 0⟩, " ", ""⟩]) :=
    ok_bind_iff.mpr ⟨[⟨⟨⟨0, 0⟩, ⟨0, 0⟩, " "⟩, 0, 0⟩],
      Buffer.plan_of_pairwise (by decide +kernel) (by decide) rfl, by decide +kernel⟩
  have hok : ∃ s ∈ (openOn (Scheme.parse defaultDepth) (⟨"x"⟩ : Buffer)).toOption,
      ∃ parsed ∈ (s.parser s.serial " x").toOption, s.text = "x" ∧
        (s.tree.reconcile (parsed.withDepth s.tree.depth)).1.nodes = [0] ∧
        defaultFocus [⟨⟨0, 0⟩, ⟨0, 0⟩, " ", ""⟩] (s.tree.reconcile (parsed.withDepth s.tree.depth)).1 = none := by
    decide +kernel
  obtain ⟨s, hopen, parsed, hparsed, htext, hnodes, hnothing⟩ := hok
  rw [mem_toOption_iff] at hopen hparsed
  have hs : s.Reachable defaultDepth := ⟨_, s, [], hopen, rfl⟩
  rw [← show s.buffer = _ from congrArg Buffer.mk htext] at happly
  obtain ⟨s', committed, hcommit, htext', hpublished⟩ := exists_published happly hparsed fun _ => .fallback
  obtain ⟨-, happly', -⟩ := accepted_of_commit hcommit
  obtain ⟨-, hchanges⟩ := Prod.mk.inj (Except.ok.inj (happly.symm.trans happly'))
  obtain ⟨hanswer, hfocused⟩ := hs.focusedFor_default hcommit rfl
  rw [← hpublished.tree] at hnodes hnothing
  rw [hchanges] at hnothing
  exact ⟨s, s', committed, hs, hcommit, htext, htext', hnodes, hanswer.trans (hfocused.eq_none_iff.mpr hnothing)⟩

/-- A blank before the only expression takes the focus away: it is put in ahead of a tree that is not empty. -/
theorem Reachable.focus_eq_none_iff_blank : ∃ (s s' : Session Buffer) (committed : Committed),
    s.Reachable defaultDepth ∧ s.commit [⟨⟨0, 0⟩, ⟨0, 0⟩, " "⟩] (fun _ => .fallback) = (s', .ok committed) ∧
    s.text = "x" ∧ s'.text = " x" ∧ s'.focus = none ∧ s.buffer.TypedAhead [⟨⟨0, 0⟩, ⟨0, 0⟩, " "⟩] s'.tree := by
  obtain ⟨s, s', committed, hs, hcommit, htext, htext', hnodes, hfocus⟩ := exists_blank_ahead
  obtain ⟨hanswer, hiff⟩ := hs.focus_eq_none_iff hcommit rfl
  rw [hanswer] at hfocus
  refine ⟨s, s', committed, hs, hcommit, htext, htext', hfocus, (hiff.mp hfocus).resolve_left fun hempty => ?_⟩
  rw [Tree.isEmpty_iff_nodes, hnodes] at hempty
  cases hempty

/-- Not only an empty tree has no focus. -/
theorem not_forall_focus_eq_none_iff_isEmpty : ¬ ∀ (s s' : Session Buffer) (edits : List Edit)
    (committed : Committed), s.Reachable defaultDepth →
    s.commit edits (fun _ => .fallback) = (s', .ok committed) →
      (committed.focus = none ↔ s'.tree.isEmpty = true) := by
  intro h
  obtain ⟨s, s', committed, hs, hcommit, -, -, hnodes, hfocus⟩ := exists_blank_ahead
  have hempty := (h s s' _ committed hs hcommit).mp hfocus
  rw [Tree.isEmpty_iff_nodes, hnodes] at hempty
  cases hempty

end Session

end StructuralEditor
