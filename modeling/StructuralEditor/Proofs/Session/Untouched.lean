import StructuralEditor.Proofs.Scheme.SamePlace
import StructuralEditor.Proofs.Session.Landing

/-!
# Nodes that a batch leaves alone

* `Buffer.exists_beginning_of_apply` : what stands before all edits, and the next character, is still there;
* `Session.Reachable.exists_root_of_before` : so is every root that ends before them, with the same spans below it;
* `Session.Reachable.same_place_of_before` : and the place of every node that does;
* `Session.commit_keeps` : which nodes that are left alone keep what they had, and which do not.
-/

namespace StructuralEditor

/-! ## Places in two trees -/

namespace Tree

variable {t u : Tree} {n : Nat}

/-- Nodes at the same place below nodes with one draft have the same span. -/
theorem span_eq_of_spells {d : Scheme.Draft} {o x y : Nat} (hd : t.table.Spells o d) (hd' : u.table.Spells n d)
    {steps : List Step} (hx : t.table.below? o steps = some x) (hy : u.table.below? n steps = some y) :
    t.span x = u.span y := by
  induction steps generalizing o n d with
  | nil =>
    cases hx
    cases hy
    rw [span_of_spells hd, span_of_spells hd']
  | cons step steps ih =>
    obtain ⟨c, hc, hx⟩ := Table.below?_cons_eq_some.mp hx
    obtain ⟨c', hc', hy⟩ := Table.below?_cons_eq_some.mp hy
    obtain ⟨e, he, hspells⟩ := hd.child hc
    obtain ⟨e', he', hspells'⟩ := hd'.child hc'
    cases he.symm.trans he'
    exact ih hspells hspells' hx hy

theorem at?_congr (hroots : t.roots = u.roots) (hkinds : Table.SameKinds t.table u.table) : t.at? = u.at? := by
  funext a
  rw [at?, at?, hroots, hkinds.below?_eq]

theorem tagAt?_congr (hroots : t.roots = u.roots) (hkinds : Table.SameKinds t.table u.table) : t.tagAt? = u.tagAt? := by
  funext a
  rw [tagAt?, tagAt?, at?_congr hroots hkinds, hkinds.tag?_eq]

end Tree

/-! ## Text before the edits -/

theorem Change.foldl_shift_of_lt {changes : List Change} {p : Position} (h : ∀ c ∈ changes, p < c.start) :
    changes.foldl (fun p c => c.shift p) p = p := by
  induction changes with
  | nil => rfl
  | cons c changes ih =>
    obtain ⟨hc, hchanges⟩ := List.forall_mem_cons.mp h
    rw [List.foldl_cons, shift, if_pos hc, ih hchanges]

namespace Buffer

variable {b b' : Buffer} {edits : List Edit} {changes : List Change}

theorem start_mem_of_apply (h : b.apply edits = .ok (b', changes)) :
    ∀ c ∈ changes, ∃ e ∈ edits, c.start = e.start := by
  obtain ⟨ls, hsorted, -, -, -, rfl⟩ := exists_located_of_apply h
  intro c hc
  obtain ⟨l, hl, rfl⟩ := List.mem_map.mp hc
  refine ⟨l.edit, mem_sorted_iff (b := b).mp ?_, rfl⟩
  rw [← hsorted]
  exact List.mem_map_of_mem (List.mem_reverse.mp hl)

/-- The text before all edits is still there when they are carried out, and so is the character behind it. -/
theorem exists_beginning_of_apply (h : b.apply edits = .ok (b', changes)) {first rest : List Char}
    (hchars : b.chars = first ++ rest) (hbefore : ∀ e ∈ edits, Position.zero.after first < e.start) :
    ∃ rest', b'.chars = first ++ rest' ∧ rest'.head? = rest.head? := by
  obtain ⟨ls, hsorted, hfits, -, hfinal, -⟩ := exists_located_of_apply h
  cases ls with
  | nil => exact ⟨rest, hfinal.trans hchars, rfl⟩
  | cons l ls =>
    have hedit : l.edit ∈ edits := by
      rw [← mem_sorted_iff (b := b), ← hsorted]
      exact List.mem_cons_self
    have hfit := hfits l List.mem_cons_self
    have hlt : first.length < l.start := by
      refine lt_of_not_ge fun hle => Position.not_lt.mpr ?_ (hbefore l.edit hedit)
      exact (index_le_index_iff hfit.start (index?_after hchars)).mpr hle
    have hle := (index?_eq_ok_iff.mp hfit.start).1
    rw [hchars, List.length_append] at hle
    cases rest with
    | nil => simp at hle; omega
    | cons c rest =>
      obtain ⟨k, hk⟩ : ∃ k, l.start - first.length = k + 1 := ⟨l.start - first.length - 1, by omega⟩
      refine ⟨c :: (rest.take k ++ l.edit.text.toList ++ spliced b.chars l.stop ls), ?_, rfl⟩
      rw [hfinal, spliced, List.drop_zero, hchars, List.take_append, List.take_of_length_le hlt.le, hk]
      simp

end Buffer

/-! ## Sessions -/

/-- A root of one tree says what a root of the other says, and what is below them at the same place stands at the same
place of the text. -/
structure Tree.SameRoot (t u : Tree) (root root' : Nat) : Prop where
  content : t.table.content root = u.table.content root'
  spans : ∀ steps o n, t.table.below? root steps = some o → u.table.below? root' steps = some n → t.span o = u.span n

namespace Session

/-- Every edit ends before the span starts or starts after it ends. -/
def Untouched (edits : List Edit) (span : Span) : Prop :=
  ∀ edit ∈ edits, edit.stop < span.start ∨ span.stop < edit.start

instance (edits : List Edit) (span : Span) : Decidable (Untouched edits span) :=
  inferInstanceAs (Decidable (∀ edit ∈ edits, edit.stop < span.start ∨ span.stop < edit.start))

def moved (changes : List Change) (span : Span) : Span where
  start := changes.foldl (fun p c => c.shift p) span.start
  stop := changes.foldl (fun p c => c.shift p) span.stop

theorem moved_of_lt {changes : List Change} {span : Span} (hspan : span.start ≤ span.stop)
    (h : ∀ c ∈ changes, span.stop < c.start) : moved changes span = span := by
  rw [moved, Change.foldl_shift_of_lt h, Change.foldl_shift_of_lt fun c hc => hspan.trans_lt (h c hc)]

section Committing

variable [Hasher] {depth : Nat} {s s' : Session Buffer} {edits : List Edit} {hint : Tree → FocusChoice}
  {committed : Committed}

theorem Reachable.covers (hs : s.Reachable depth) {root o : Nat} (hroot : root ∈ s.tree.nodes)
    (ho : o ∈ s.tree.descendants root) :
    (s.tree.span o).start ≤ (s.tree.span o).stop ∧ (s.tree.span root).Covers (s.tree.span o) := by
  obtain ⟨serial, t, hparse, ht⟩ := hs.coherent.relabelled
  obtain ⟨tokens, items, -, -, hparsed⟩ := Scheme.parsed_of_parse hparse
  have hbelow : s.tree.descendants = t.descendants := ht.sameKinds.descendants_eq
  rw [ht.nodes] at hroot
  rw [hbelow] at ho
  rw [ht.span_eq]
  exact ⟨hparsed.nested.start_le_stop (hparsed.nested.built.descendants_subset root hroot o ho).1,
    hparsed.nested.covers root hroot o ho⟩

theorem Reachable.exists_root_of_before (hs : s.Reachable depth)
    (hcommit : s.commit edits hint = (s', .ok committed)) {i root : Nat} (hroot : s.tree.codeRoots[i]? = some root)
    (hbefore : ∀ e ∈ edits, (s.tree.span root).stop < e.start) :
    ∃ root', s'.tree.codeRoots[i]? = some root' ∧ Tree.SameRoot s.tree s'.tree root root' := by
  obtain ⟨-, happly, -⟩ := accepted_of_commit hcommit
  obtain ⟨serial, t, hparse, ht⟩ := hs.coherent.relabelled
  obtain ⟨serial', t', hparse', ht'⟩ := (hs.of_commit hcommit).coherent.relabelled
  rw [Tree.codeRoots_congr ht.roots ht.sameKinds] at hroot
  rw [ht.span_eq] at hbefore
  obtain ⟨first, rest, d, hsource, hstop, hspells, hsame⟩ := Scheme.exists_beginning_of_codeRoot hparse hroot
  rw [hstop] at hbefore
  obtain ⟨rest', hsource', hhead⟩ := Buffer.exists_beginning_of_apply happly hsource hbefore
  obtain ⟨root', hroot', hspells'⟩ := hsame hsource' (fun c hc => hhead ▸ hc) hparse'
  rw [← Tree.codeRoots_congr ht'.roots ht'.sameKinds] at hroot'
  refine ⟨root', hroot', ?_, fun steps o n ho hn => ?_⟩
  · have ho := (Scheme.mints_parse depth _ _ _ hparse).built.ordered
    have hn := (Scheme.mints_parse depth _ _ _ hparse').built.ordered
    rw [ht.content, ht'.content, hspells.content ho, hspells'.content hn]
  · rw [ht.sameKinds.below?_eq] at ho
    rw [ht'.sameKinds.below?_eq] at hn
    rw [ht.span_eq, ht'.span_eq]
    exact Tree.span_eq_of_spells hspells hspells' ho hn

/-- What is below a root that ends before all edits is kept, and is where it was. -/
theorem Reachable.exists_kept_of_before (hs : s.Reachable depth)
    (hcommit : s.commit edits hint = (s', .ok committed)) {i root o : Nat}
    (hroot : s.tree.codeRoots[i]? = some root) (hbefore : ∀ e ∈ edits, (s.tree.span root).stop < e.start)
    (ho : o ∈ s.tree.descendants root) :
    ∃ n ∈ s'.tree.nodes, Kept s s' o n ∧ s'.tree.span n = s.tree.span o := by
  obtain ⟨parsed, hpublished⟩ := published_of_commit hcommit
  obtain ⟨root', hroot', hsame⟩ := hs.exists_root_of_before hcommit hroot hbefore
  have hroot := hs.coherent.roots_of_codeRoots hroot
  have hroot' := (hs.of_commit hcommit).coherent.roots_of_codeRoots hroot'
  obtain ⟨j, hj⟩ := List.mem_iff_getElem?.mp ho
  have hkept := hs.kept_below hpublished hroot hroot' hsame.content
  obtain ⟨n, hn, hkept⟩ := Scheme.exists_getElem?_of_forall₂ hkept hj
  have hb := hs.marked.built
  have hb' := (hs.of_commit hcommit).marked.built
  have hmem' := hb'.root_mem (List.mem_of_getElem? hroot')
  obtain ⟨a, ha⟩ := hb.exists_node? (hb.root_mem (List.mem_of_getElem? hroot))
  obtain ⟨b, hb''⟩ := hb'.exists_node? hmem'
  obtain ⟨steps, hwalk, hwalk'⟩ := (Table.mem_zip_descendants_iff hb.ordered hb'.ordered ha hb'' hsame.content).mp
    (mem_zip_iff.mpr ⟨j, hj, hn⟩)
  refine ⟨n, (hb'.descendants_subset root' hmem' n (List.mem_of_getElem? hn)).1, hkept, ?_⟩
  exact (hsame.spans steps o n hwalk hwalk').symm

/-- What says the same as a node that ends before all edits, and stands where that did, is at its place. -/
theorem Reachable.same_place_of_before (hs : s.Reachable depth)
    (hcommit : s.commit edits hint = (s', .ok committed)) {a a' : Address} {o n : Nat} (hat : s.tree.at? a = some o)
    (hat' : s'.tree.at? a' = some n) (hspan : s'.tree.span n = s.tree.span o)
    (hcontent : s'.tree.table.content n = s.tree.table.content o)
    (hbefore : ∀ e ∈ edits, (s.tree.span o).stop < e.start) : a' = a ∧ Tree.SameForms s.tree s'.tree a := by
  obtain ⟨-, happly, -⟩ := accepted_of_commit hcommit
  obtain ⟨serial, t, hparse, ht⟩ := hs.coherent.relabelled
  obtain ⟨serial', t', hparse', ht'⟩ := (hs.of_commit hcommit).coherent.relabelled
  rw [Tree.at?_congr ht.roots ht.sameKinds] at hat
  rw [Tree.at?_congr ht'.roots ht'.sameKinds] at hat'
  rw [ht.span_eq] at hbefore
  rw [ht.span_eq, ht'.span_eq] at hspan
  rw [ht.content, ht'.content] at hcontent
  obtain ⟨first, rest, hsource, hstop, hsame⟩ := Scheme.exists_beginning_of_node hparse hat
  rw [hstop] at hbefore
  obtain ⟨rest', hsource', hhead⟩ := Buffer.exists_beginning_of_apply happly hsource hbefore
  obtain ⟨hplace, hforms⟩ := hsame hsource' (fun c hc => hhead ▸ hc) hparse' hat' hspan hcontent
  refine ⟨hplace, fun way hway => ?_⟩
  rw [Tree.tagAt?_congr ht.roots ht.sameKinds, Tree.tagAt?_congr ht'.roots ht'.sameKinds]
  exact hforms way hway

theorem Reachable.moved_of_before (hs : s.Reachable depth)
    (hcommit : s.commit edits hint = (s', .ok committed)) {o : Nat} (ho : o ∈ s.tree.nodes)
    (hbefore : ∀ e ∈ edits, (s.tree.span o).stop < e.start) :
    moved committed.changes (s.tree.span o) = s.tree.span o := by
  obtain ⟨-, happly, -⟩ := accepted_of_commit hcommit
  have hself := (hs.marked.built.mem_descendants_iff ho).mpr (.inl rfl)
  refine moved_of_lt (hs.covers ho hself).1 fun c hc => ?_
  obtain ⟨e, he, hstart⟩ := Buffer.start_mem_of_apply happly c hc
  exact hstart ▸ hbefore e he

/-- A node that says the same as an old one, where the edits move it, has its identity and its options, and is
collapsed if the old one was, just if it stands at its address, under nodes of the same forms. So it does whenever all
edits are behind the old one; then only a collision can keep the identity from it, and nothing can if the edits are
behind the whole root. -/
theorem commit_keeps (hs : s.Reachable depth) (hcommit : s.commit edits hint = (s', .ok committed)) {a a' : Address}
    {o n : Nat} (hat : s.tree.at? a = some o) (hat' : s'.tree.at? a' = some n)
    (hspan : s'.tree.span n = moved committed.changes (s.tree.span o))
    (hcontent : s'.tree.table.content n = s.tree.table.content o) :
    (s.tree.CollisionFree s'.tree → (Kept s s' o n ↔ a' = a ∧ Tree.SameForms s.tree s'.tree a)) ∧
    ((∀ e ∈ edits, (s.tree.span o).stop < e.start) →
      a' = a ∧ Tree.SameForms s.tree s'.tree a ∧ (s.tree.CollisionFree s'.tree → Kept s s' o n)) ∧
    ∀ root, s.tree.codeRoots[a.root]? = some root → (∀ e ∈ edits, (s.tree.span root).stop < e.start) →
      Kept s s' o n := by
  have hb := hs.marked.built
  have hs' := hs.of_commit hcommit
  have hb' := hs'.marked.built
  have ho := hb.mem_nodes_iff.mpr ⟨a, hat⟩
  have hn := hb'.mem_nodes_iff.mpr ⟨a', hat'⟩
  have hkept : s.tree.CollisionFree s'.tree → (Kept s s' o n ↔ a' = a ∧ Tree.SameForms s.tree s'.tree a) := by
    intro hfree
    obtain ⟨old, hold⟩ := hb.exists_node? ho
    obtain ⟨new, hnew⟩ := hb'.exists_node? hn
    obtain ⟨hiff, hsame⟩ := commit_identity_iff hs hcommit hfree hat hold hat' hnew hcontent.symm
    constructor
    · rintro ⟨-, old', new', hold', hnew', hidentity, -⟩
      cases hold.symm.trans hold'
      cases hnew.symm.trans hnew'
      exact hiff.mp hidentity
    · intro hplace
      have hidentity := hiff.mpr hplace
      obtain ⟨hoptions, hcollapsed⟩ := hsame hidentity
      exact ⟨hcontent, old, new, hold, hnew, hidentity, hoptions, hidentity ▸ hcollapsed⟩
  refine ⟨hkept, fun hbefore => ?_, fun root hroot hbefore => ?_⟩
  · rw [hs.moved_of_before hcommit ho hbefore] at hspan
    obtain ⟨hplace, hforms⟩ := hs.same_place_of_before hcommit hat hat' hspan hcontent hbefore
    exact ⟨hplace, hforms, fun hfree => (hkept hfree).mpr ⟨hplace, hforms⟩⟩
  · obtain ⟨root', hroot', hwalk⟩ := Tree.at?_eq_some.mp hat
    cases (hs.coherent.roots_of_codeRoots hroot).symm.trans hroot'
    have hmem := hb.root_mem (List.mem_of_getElem? hroot')
    obtain ⟨node, hnode⟩ := hb.exists_node? hmem
    have hbelow : o ∈ s.tree.descendants root :=
      (Table.mem_descendants_iff hb.ordered (Table.exists_get?_iff_lt.mp ⟨node, hnode⟩)).mpr ⟨_, hwalk⟩
    obtain ⟨m, hm, hkept, hspan'⟩ := hs.exists_kept_of_before hcommit hroot hbefore hbelow
    have hcovers := (hs.covers hmem hbelow).2
    have hmoved := hs.moved_of_before hcommit ho fun e he => hcovers.2.trans_lt (hbefore e he)
    have heq : n = m :=
      hs'.inOrder.eq_of_span_eq hb' hn hm (by rw [hspan, hmoved, hspan']) (hcontent.trans hkept.content.symm)
    exact heq ▸ hkept

end Committing

/-- While an argument is edited, the definition before it keeps its identity and stays collapsed, and so does the
argument before it in the same application. -/
theorem commit_keeps_definition : ∃ (s s' : Session Buffer) (committed : Committed), s.Reachable defaultDepth ∧
    s.commit [⟨⟨1, 5⟩, ⟨1, 6⟩, "(* 3 4)"⟩] (fun _ => .fallback) = (s', .ok committed) ∧
    s.tree.CollisionFree s'.tree ∧ Tree.SameForms s.tree s'.tree ⟨0, []⟩ ∧ Kept s s' 2 2 ∧
    s'.isCollapsed ⟨2⟩ = true ∧ s.tree.at? ⟨1, [⟨1, 0⟩]⟩ = some 4 ∧ Kept s s' 4 4 := by
  have hrun : ∃ p ∈ afterEdits? "(define x 1)\n(+ x 2)" [.collapse ⟨2⟩] [⟨⟨1, 5⟩, ⟨1, 6⟩, "(* 3 4)"⟩],
      (p.1.tree.at? ⟨0, []⟩ = some 2 ∧ p.2.1.tree.at? ⟨0, []⟩ = some 2 ∧
        p.2.1.tree.span 2 = moved p.2.2.changes (p.1.tree.span 2) ∧
        p.2.1.tree.table.content 2 = p.1.tree.table.content 2 ∧ p.1.tree.CollisionFree p.2.1.tree ∧
        p.1.tree.codeRoots[0]? = some 2 ∧ (p.1.tree.span 2).stop < ⟨1, 5⟩ ∧
        (p.1.tree.node? 2).map (·.identity) = some ⟨2⟩ ∧ p.1.isCollapsed ⟨2⟩ = true) ∧
      p.1.tree.at? ⟨1, [⟨1, 0⟩]⟩ = some 4 ∧ p.2.1.tree.at? ⟨1, [⟨1, 0⟩]⟩ = some 4 ∧
        p.2.1.tree.span 4 = moved p.2.2.changes (p.1.tree.span 4) ∧
        p.2.1.tree.table.content 4 = p.1.tree.table.content 4 ∧ (p.1.tree.span 4).stop < ⟨1, 5⟩ := by
    decide +kernel
  obtain ⟨⟨s, s', committed⟩, hp, ⟨hat, hat', hspan, hcontent, hfree, hroot, hbefore, hidentity, hcollapsed⟩,
    hinner, hinner', hinnerSpan, hinnerContent, hinnerBefore⟩ := hrun
  obtain ⟨⟨opened, hopen, hs⟩, hcommit⟩ := of_afterEdits? hp
  have hreachable : s.Reachable defaultDepth := ⟨_, opened, _, hopen, hs⟩
  obtain ⟨hiff, -, hkeeps⟩ := commit_keeps hreachable hcommit hat hat' hspan hcontent
  have hkept := hkeeps 2 hroot fun e he => List.mem_singleton.mp he ▸ hbefore
  obtain ⟨old, new, hold, -, -, -, hsame⟩ := hkept.node
  rw [hold, Option.map_some, Option.some.injEq] at hidentity
  rw [hidentity] at hsame
  obtain ⟨-, hbehind, -⟩ := commit_keeps hreachable hcommit hinner hinner' hinnerSpan hinnerContent
  obtain ⟨-, -, hargument⟩ := hbehind fun e he => List.mem_singleton.mp he ▸ hinnerBefore
  exact ⟨s, s', committed, hreachable, hcommit, hfree, ((hiff hfree).mp hkept).2, hkept, hsame.trans hcollapsed, hinner,
    hargument hfree⟩

/-- A node that the edits leave alone, and that is found with the same content where they move it, has another
identity when a sibling is put before it. -/
theorem insertion_renews_identity : ∃ (s s' : Session Buffer) (committed : Committed) (old new : Node),
    openOn (Scheme.parse defaultDepth) ⟨"a b"⟩ = .ok s ∧
    s.commit [⟨⟨0, 0⟩, ⟨0, 0⟩, "x "⟩] (fun _ => .fallback) = (s', .ok committed) ∧
    s.tree.at? ⟨1, []⟩ = some 1 ∧ s.tree.node? 1 = some old ∧ Untouched [⟨⟨0, 0⟩, ⟨0, 0⟩, "x "⟩] old.span ∧
    s'.tree.at? ⟨2, []⟩ = some 2 ∧ s'.tree.node? 2 = some new ∧ new.span = moved committed.changes old.span ∧
    s'.tree.table.content 2 = s.tree.table.content 1 ∧ new.identity ≠ old.identity := by
  have hrun : ∃ p ∈ afterEdits? "a b" [] [⟨⟨0, 0⟩, ⟨0, 0⟩, "x "⟩], ∃ old ∈ p.1.tree.node? 1,
      ∃ new ∈ p.2.1.tree.node? 2, p.1.tree.at? ⟨1, []⟩ = some 1 ∧
        Untouched [⟨⟨0, 0⟩, ⟨0, 0⟩, "x "⟩] old.span ∧ p.2.1.tree.at? ⟨2, []⟩ = some 2 ∧
        new.span = moved p.2.2.changes old.span ∧ p.2.1.tree.table.content 2 = p.1.tree.table.content 1 ∧
        new.identity ≠ old.identity := by
    decide +kernel
  obtain ⟨⟨s, s', committed⟩, hp, old, hold, new, hnew, hat, huntouched, hat', hspan, hcontent, hne⟩ := hrun
  obtain ⟨⟨opened, hopen, rfl⟩, hcommit⟩ := of_afterEdits? hp
  exact ⟨opened, s', committed, old, new, hopen, hcommit, hat, hold, huntouched, hat', hnew, hspan, hcontent, hne⟩

end Session

end StructuralEditor
