import StructuralEditor.Proofs.Session.Run
import StructuralEditor.Proofs.Tree.Identities

/-!
# Identities through commits

* `Session.isCollapsed_of_published` : a node of the published tree is collapsed if its identity was;
* `Session.Kept`, `Session.Reachable.kept_below` : nodes below roots in the same place that say the same are kept;
* `Session.commit_identity_iff` : which node of the tree published by a commit has the identity of an old node
  that says the same; with the identity come the options and whether it is collapsed.
-/

namespace StructuralEditor

namespace Session

/-! ## Collapsed nodes -/

/-- Only identities that are not in the tree are dropped from the collapsed ones. -/
theorem isCollapsed_of_filter {β : Type} {s s' : Session β} {identity : Identity}
    (h : s'.collapsed = s.collapsed.filter fun identity => (s'.tree.byIdentity? identity).isSome)
    (hfound : (s'.tree.byIdentity? identity).isSome) : s'.isCollapsed identity = s.isCollapsed identity := by
  rw [isCollapsed, isCollapsed, h, Bool.eq_iff_iff, List.contains_iff_mem, List.contains_iff_mem, List.mem_filter]
  exact and_iff_left hfound

section Committing

variable [Hasher] {depth : Nat} {s s' : Session Buffer} {edits : List Edit} {hint : Tree → FocusChoice}
  {committed : Committed}

theorem isCollapsed_of_published {parsed : Tree} (h : Coherent depth s) (hpublished : Published s parsed s')
    {a : Address} {n : Nat} {node : Node} (hat : s'.tree.at? a = some n) (hnode : s'.tree.node? n = some node) :
    s'.isCollapsed node.identity = s.isCollapsed node.identity := by
  obtain ⟨hparsed, htree⟩ := h.tree_eq hpublished
  have hbuilt : s'.tree.Built := by
    rw [htree]
    exact (Scheme.mints_parse depth _ _ _ hparsed).built.reconcile s.tree
  exact isCollapsed_of_filter hpublished.collapsed
    (Tree.isSome_byIdentity? hbuilt.ordered hbuilt.layout hat hnode)

/-! ## Following nodes -/

theorem published_of_commit (h : s.commit edits hint = (s', .ok committed)) : ∃ parsed, Published s parsed s' := by
  rcases s.commit_cases edits hint with ⟨e, h'⟩ | ⟨parsed, s'', committed', h', hpublished⟩
  · cases h.symm.trans h'
  · cases h.symm.trans h'
    exact ⟨parsed, hpublished⟩

/-- Of the nodes that say the same as an old one, just the one at its address, under nodes of the same forms, has
its identity after a commit; and then it has its options and is collapsed if the old one was. -/
theorem commit_identity_iff (hs : s.Reachable depth) (hcommit : s.commit edits hint = (s', .ok committed))
    (hfree : s.tree.CollisionFree s'.tree) {a a' : Address} {o n : Nat} {old new : Node} (hat : s.tree.at? a = some o)
    (hold : s.tree.node? o = some old) (hat' : s'.tree.at? a' = some n) (hnew : s'.tree.node? n = some new)
    (hcontent : s.tree.table.content o = s'.tree.table.content n) :
    (new.identity = old.identity ↔ a' = a ∧ Tree.SameForms s.tree s'.tree a) ∧
      (new.identity = old.identity →
        new.options = old.options ∧ s'.isCollapsed new.identity = s.isCollapsed old.identity) := by
  obtain ⟨parsed, hpublished⟩ := published_of_commit hcommit
  obtain ⟨hparsed, htree⟩ := hs.coherent.tree_eq hpublished
  have ho := hs.marked.built.ordered
  have hn := (Scheme.mints_parse depth _ _ _ hparsed).built.ordered
  have hu := Scheme.unshared_of_parse hparsed
  have hcollapsed := isCollapsed_of_published hs.coherent hpublished hat' hnew
  rw [htree] at hat' hnew hcontent hfree ⊢
  rw [Tree.collisionFree_reconcile] at hfree
  rw [Tree.at?_reconcile] at hat'
  rw [(Tree.sameKinds_reconcile _ _).content_eq] at hcontent
  rw [Tree.sameForms_reconcile]
  have hiff := Tree.identity_eq_iff ho hn hu hfree hs.marked.identified
    (fun id node hnode => Scheme.identity_of_parse hparsed hnode) hat hold hat' hnew hcontent
  refine ⟨hiff, fun heq => ⟨?_, ?_⟩⟩
  · obtain ⟨rfl, hforms⟩ := hiff.mp heq
    exact Tree.options_eq_of_sameForms ho hn hu hfree hat hold hat' hnew hcontent hforms
  · rw [← heq]
    exact hcollapsed

/-- The node says the same as the one before and has its identity and options, and its identity is collapsed if it
was. -/
structure Kept (s s' : Session Buffer) (o n : Nat) : Prop where
  content : s'.tree.table.content n = s.tree.table.content o
  node : ∃ old new, s.tree.node? o = some old ∧ s'.tree.node? n = some new ∧ new.identity = old.identity ∧
    new.options = old.options ∧ s'.isCollapsed old.identity = s.isCollapsed old.identity

/-- Below roots in the same place that say the same, all nodes are kept, one for one in document order. -/
theorem Reachable.kept_below (hs : s.Reachable depth) {parsed : Tree} (hpublished : Published s parsed s')
    {i root root' : Nat} (hroot : s.tree.roots[i]? = some root) (hroot' : s'.tree.roots[i]? = some root')
    (hcontent : s.tree.table.content root = s'.tree.table.content root') :
    List.Forall₂ (Kept s s') (s.tree.descendants root) (s'.tree.descendants root') := by
  have hb := hs.marked.built
  obtain ⟨hparsed, htree⟩ := hs.coherent.tree_eq hpublished
  have hm := Scheme.mints_parse depth _ _ _ hparsed
  have hkinds := Tree.sameKinds_reconcile s.tree parsed
  have hb' : s'.tree.Built := htree ▸ hm.built.reconcile s.tree
  obtain ⟨a, ha⟩ := Table.exists_get?_iff_lt.mpr (hb.roots_lt root (List.mem_of_getElem? hroot))
  obtain ⟨b, hb''⟩ := Table.exists_get?_iff_lt.mpr (hb'.roots_lt root' (List.mem_of_getElem? hroot'))
  have htag := Table.tag?_eq_of_content hb.ordered hb'.ordered ha hb'' hcontent
  refine List.forall₂_iff_zip.mpr
    ⟨Table.length_descendants_eq hb.ordered hb'.ordered ha hb'' hcontent, fun {o n} hpair => ?_⟩
  obtain ⟨steps, ho, hn⟩ := (Table.mem_zip_descendants_iff hb.ordered hb'.ordered ha hb'' hcontent).mp hpair
  obtain ⟨-, hcontent'⟩ := Table.sameForms_of_content_eq hb.ordered hb'.ordered htag hcontent ho hn
  obtain ⟨old, hold⟩ := Table.exists_get?_of_below? hb.ordered ha ho
  obtain ⟨new, hnew⟩ := Table.exists_get?_of_below? hb'.ordered hb'' hn
  have hnode : s'.tree.node? n = (parsed.node? n).map fun node =>
      { node with identity := old.identity, options := old.options } := by
    rw [htree] at hroot' hcontent hpair ⊢
    rw [hkinds.content_eq] at hcontent
    rw [Tree.descendants, Tree.descendants, hkinds.descendants_eq] at hpair
    exact Tree.reconcile_node?_of_content_eq hb hm.built hm.unshared hroot hroot' hcontent hpair hold
  obtain ⟨own, -, rfl⟩ := Option.map_eq_some_iff.mp (hnode.symm.trans hnew)
  have hat' := Tree.at?_eq_some (a := ⟨i, steps⟩) |>.mpr ⟨root', hroot', hn⟩
  have hcollapsed := isCollapsed_of_published hs.coherent hpublished hat' hnew
  exact ⟨hcontent'.symm, old, _, hold, hnew, rfl, rfl, hcollapsed⟩

/-- A session after operations, the same session after edits as well, and the outcome of the edits. -/
def afterEdits? (source : String) (operations : List Operation) (edits : List Edit) :
    Option (Session Buffer × Session Buffer × Committed) :=
  (openOn (Scheme.parse defaultDepth) ⟨source⟩).toOption.bind fun opened =>
    (((opened.run operations).commit edits fun _ => .fallback).2.toOption).map fun committed =>
      (opened.run operations, ((opened.run operations).commit edits fun _ => .fallback).1, committed)

theorem of_afterEdits? {source : String} {operations : List Operation} {edits : List Edit} {s s' : Session Buffer}
    {committed : Committed} (h : (s, s', committed) ∈ afterEdits? source operations edits) :
    (∃ opened, openOn (Scheme.parse defaultDepth) (⟨source⟩ : Buffer) = .ok opened ∧ opened.run operations = s) ∧
      s.commit edits (fun _ => .fallback) = (s', .ok committed) := by
  obtain ⟨opened, hopen, h⟩ := Option.bind_eq_some_iff.mp h
  obtain ⟨committed', hcommitted, h⟩ := Option.map_eq_some_iff.mp h
  cases h
  exact ⟨⟨opened, mem_toOption_iff.mp hopen, rfl⟩, Prod.ext rfl (mem_toOption_iff.mp hcommitted)⟩

end Committing

end Session

end StructuralEditor
