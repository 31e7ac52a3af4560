import StructuralEditor.Proofs.Scheme.Spacing
import StructuralEditor.Proofs.Session.Trials
import StructuralEditor.Proofs.Session.Identities

/-!
# Edits of blanks and comments lose nothing

* `Session.Coherent.roots_of_codeRoots` : the roots that are no comments have their numbers among all roots;
* `Session.commit_of_codeOf_eq` : edits after which a text has the same code are published, and every node of the
  roots that are no comments is kept.
-/

namespace StructuralEditor

theorem Tree.codeRoots_congr {t u : Tree} (hroots : t.roots = u.roots) (hkinds : Table.SameKinds t.table u.table) :
    t.codeRoots = u.codeRoots := by
  unfold codeRoots
  rw [hroots, hkinds.tag?_eq]

namespace Session

variable {depth : Nat} {s s' : Session Buffer}

/-- The roots of a session that are no comments come first, so they have their numbers among all roots. -/
theorem Coherent.roots_of_codeRoots (h : Coherent depth s) {i root : Nat} (hroot : s.tree.codeRoots[i]? = some root) :
    s.tree.roots[i]? = some root := by
  obtain ⟨serial, t, hparse, hrelabelled⟩ := h.relabelled
  have hfirst := Scheme.codeRoots_prefix_of_parse hparse
  rw [← Tree.codeRoots_congr hrelabelled.roots hrelabelled.sameKinds, ← hrelabelled.roots] at hfirst
  obtain ⟨hi, rfl⟩ := List.getElem?_eq_some_iff.mp hroot
  exact List.prefix_iff_getElem?.mp hfirst i hi

section Committing

variable [Hasher]

/-- Edits that the buffer takes, and after which the text has the same lexemes but for comments, are published. The
roots that are no comments say what they said before, in the same order, and every node of them is kept. -/
theorem commit_of_codeOf_eq (hs : s.Reachable depth) {edits : List Edit} {edited : Buffer} {changes : List Change}
    (happly : Buffer.apply s.buffer edits = .ok (edited, changes))
    (hcode : Scheme.codeOf edited.text = Scheme.codeOf s.text) (hint : Tree → FocusChoice) :
    ∃ s' committed, s.commit edits hint = (s', .ok committed) ∧ s'.text = edited.text ∧
      s'.tree.codeRoots.map s'.tree.table.content = s.tree.codeRoots.map s.tree.table.content ∧
      List.Forall₂ (fun root root' => List.Forall₂ (Kept s s') (s.tree.descendants root) (s'.tree.descendants root'))
        s.tree.codeRoots s'.tree.codeRoots := by
  obtain ⟨serial, t, hparse, hrelabelled⟩ := hs.coherent.relabelled
  obtain ⟨parsed, hparsed, hcontents⟩ := Scheme.exists_parse_of_codeOf_eq hparse hcode depth s.serial
  rw [← hs.coherent.parser] at hparsed
  obtain ⟨s', committed, hcommit, htext, hpublished⟩ := exists_published happly hparsed hint
  have hsame : s'.tree.codeRoots.map s'.tree.table.content = s.tree.codeRoots.map s.tree.table.content := by
    have hkinds := Tree.sameKinds_reconcile s.tree parsed
    have hroots : (s.tree.reconcile parsed).1.roots = parsed.roots := rfl
    rw [(hs.coherent.tree_eq hpublished).2, Tree.codeRoots_congr hroots hkinds, hkinds.content_eq, hcontents,
      Tree.codeRoots_congr hrelabelled.roots hrelabelled.sameKinds, hrelabelled.content]
  refine ⟨s', committed, hcommit, htext, hsame, List.forall₂_iff_zip.mpr ⟨?_, fun {root root'} hpair => ?_⟩⟩
  · simpa using (congrArg List.length hsame).symm
  · -- Roots with the same number among these have the same number among all roots.
    obtain ⟨i, hroot, hroot'⟩ := mem_zip_iff.mp hpair
    have hcontent : s.tree.table.content root = s'.tree.table.content root' := by
      have hi := congrArg (·[i]?) hsame
      simp only [List.getElem?_map, hroot, hroot', Option.map_some, Option.some.injEq] at hi
      exact hi.symm
    exact hs.kept_below hpublished (hs.coherent.roots_of_codeRoots hroot)
      ((hs.coherent.of_published hpublished).roots_of_codeRoots hroot') hcontent

end Committing

/-- A line break in a definition and a comment behind it: the comment is a root of its own, and the definition keeps
its identity and stays collapsed. -/
theorem commit_of_codeOf_eq_definition : ∃ (s s' : Session Buffer) (committed : Committed),
    s.Reachable defaultDepth ∧
    s.commit [⟨⟨0, 9⟩, ⟨0, 12⟩, "\n  1) ; one"⟩] (fun _ => .fallback) = (s', .ok committed) ∧
    s'.text = "(define x\n  1) ; one" ∧ s.tree.roots = [2] ∧ s'.tree.roots = [2, 3] ∧ Kept s s' 2 2 ∧ Kept s s' 0 0 ∧
    Kept s s' 1 1 ∧ s'.isCollapsed ⟨2⟩ = true := by
  have hrun : ∃ p ∈ afterEdits? "(define x 1)" [.collapse ⟨2⟩] [⟨⟨0, 9⟩, ⟨0, 12⟩, "\n  1) ; one"⟩],
      Buffer.apply p.1.buffer [⟨⟨0, 9⟩, ⟨0, 12⟩, "\n  1) ; one"⟩] = .ok (p.2.1.buffer, p.2.2.changes) ∧
      Scheme.codeOf p.2.1.buffer.text = Scheme.codeOf p.1.text ∧ p.2.1.text = "(define x\n  1) ; one" ∧
      p.1.tree.roots = [2] ∧ p.1.tree.codeRoots = [2] ∧ p.2.1.tree.roots = [2, 3] ∧ p.2.1.tree.codeRoots = [2] ∧
      p.1.tree.descendants 2 = [2, 0, 1] ∧ p.2.1.tree.descendants 2 = [2, 0, 1] ∧
      (p.1.tree.node? 2).map (·.identity) = some ⟨2⟩ ∧ p.1.isCollapsed ⟨2⟩ = true := by
    decide +kernel
  obtain ⟨⟨s, s', committed⟩, hp, happly, hcode, htext, hroots, hcodeRoots, hroots', hcodeRoots', hbelow, hbelow',
    hidentity, hcollapsed⟩ := hrun
  obtain ⟨⟨opened, hopen, hs⟩, hcommit⟩ := of_afterEdits? hp
  have hreachable : s.Reachable defaultDepth := ⟨_, opened, _, hopen, hs⟩
  obtain ⟨s'', committed'', hcommit'', -, -, hkept⟩ := commit_of_codeOf_eq hreachable happly hcode fun _ => .fallback
  cases hcommit.symm.trans hcommit''
  simp only at hcodeRoots hcodeRoots' hbelow hbelow' hidentity hcollapsed
  simp only [hcodeRoots, hcodeRoots', List.forall₂_cons, hbelow, hbelow', List.Forall₂.nil, and_true] at hkept
  obtain ⟨hdefinition, hname, hvalue⟩ := hkept
  obtain ⟨old, new, hold, -, -, -, hsame⟩ := hdefinition.node
  rw [hold, Option.map_some, Option.some.injEq] at hidentity
  rw [hidentity, hcollapsed] at hsame
  exact ⟨s, s', committed, hreachable, hcommit, htext, hroots, hroots', hdefinition, hname, hvalue, hsame⟩

end Session

end StructuralEditor
