import StructuralEditor.Proofs.Tree.Ancestry

/-!
# What reconciliation leaves alone, and what it looks at

* `Node.unlabelled`, `Tree.Relabelled` : trees that are the same but for identities and options;
* `Tree.Built.relabelled_reconcile` : so it is with a reconciled tree and the new one;
* `Tree.Renumbered` : the nodes of one tree are those of another under other indices, with the same forms, texts,
  children, identities and options;
* `Tree.Renumbered.adoptions_eq` : what a new tree takes over is the same from both;
* `Tree.Made.relabelled_and_reconcile_eq` : these together.
-/

namespace StructuralEditor

def Node.unlabelled (node : Node) : Node := { node with identity := default, options := .none }

/-! ## What is left alone -/

theorem Kind.pairs_map_left {α β γ : Type} (f : α → β) (k : Kind α) (l : Kind γ) :
    (k.map f).pairs l = (k.pairs l).map (Prod.map f id) := by
  rw [pairs, pairs, fields_map, List.zip_map_left, List.flatMap_map, List.map_flatMap]
  refine List.flatMap_congr fun p _ => ?_
  simp only [Prod.map_fst, Prod.map_snd, id, Field.nodes_map, List.zip_map_left]

namespace Table

variable {t u : Table}

theorem map_unlabelled_foldl_adopt (xs : List Adoption) (t : Table) (id : Nat) :
    ((xs.foldl adopt t).get? id).map Node.unlabelled = (t.get? id).map Node.unlabelled := by
  induction xs generalizing t with
  | nil => rfl
  | cons x xs ih =>
    rw [List.foldl_cons, ih, get?_adopt]
    split
    · rw [Option.map_map]
      rfl
    · rfl

end Table

namespace Tree

variable {t u v old new : Tree} {f : Nat → Nat} {id : Nat}

/-- The trees are the same but for the identities and the options of their nodes: they have the same nodes, with the
same spans, forms, texts, children and comments, in the same places and found by the same numbers and paths. -/
structure Relabelled (t u : Tree) : Prop where
  size : t.table.size = u.table.size
  node : ∀ id, (t.node? id).map Node.unlabelled = (u.node? id).map Node.unlabelled
  content : t.table.content = u.table.content
  roots : t.roots = u.roots
  contents : t.contents = u.contents
  depth : t.depth = u.depth
  nodes : t.nodes = u.nodes
  place : t.place? = u.place?
  byNumber : t.byNumber? = u.byNumber?
  byPath : t.byPath? = u.byPath?

theorem Relabelled.refl (t : Tree) : t.Relabelled t := ⟨rfl, fun _ => rfl, rfl, rfl, rfl, rfl, rfl, rfl, rfl, rfl⟩

theorem Relabelled.symm (h : t.Relabelled u) : u.Relabelled t where
  size := h.size.symm
  node := fun id => (h.node id).symm
  content := h.content.symm
  roots := h.roots.symm
  contents := h.contents.symm
  depth := h.depth.symm
  nodes := h.nodes.symm
  place := h.place.symm
  byNumber := h.byNumber.symm
  byPath := h.byPath.symm

theorem Relabelled.trans (h : t.Relabelled u) (h' : u.Relabelled v) : t.Relabelled v where
  size := h.size.trans h'.size
  node := fun id => (h.node id).trans (h'.node id)
  content := h.content.trans h'.content
  roots := h.roots.trans h'.roots
  contents := h.contents.trans h'.contents
  depth := h.depth.trans h'.depth
  nodes := h.nodes.trans h'.nodes
  place := h.place.trans h'.place
  byNumber := h.byNumber.trans h'.byNumber
  byPath := h.byPath.trans h'.byPath

/-- Trees that are the same but for identities have the same forms, texts and children. -/
theorem Alike.sameKinds (h : t.Alike u) : Table.SameKinds t.table u.table := by
  intro id
  have hid := congrArg (Option.map (·.kind)) (Table.anonymous_eq_iff.mp h.nodes id)
  rwa [Option.map_map, Option.map_map] at hid

theorem sameKinds_of_unlabelled
    (h : ∀ id, (t.node? id).map Node.unlabelled = (u.node? id).map Node.unlabelled) :
    Table.SameKinds t.table u.table := by
  intro id
  have hid := congrArg (Option.map (·.kind)) (h id)
  rwa [Option.map_map, Option.map_map] at hid

theorem Relabelled.sameKinds (h : t.Relabelled u) : Table.SameKinds t.table u.table := sameKinds_of_unlabelled h.node

/-- Trees of which the nodes and the layouts are the same but for identities and options. -/
theorem relabelled_of_layout (hnode : ∀ id, (t.node? id).map Node.unlabelled = (u.node? id).map Node.unlabelled)
    (hroots : t.roots = u.roots) (hlayout : t.layout.Alike u.layout) (hdepth : t.depth = u.depth) : t.Relabelled u := by
  have hkinds := sameKinds_of_unlabelled hnode
  refine ⟨hkinds.size_eq, hnode, hkinds.content_eq, hroots, ?_, hdepth, ?_, ?_, ?_, ?_⟩
  · rw [contents, contents, hkinds.content_eq, hroots]
  · rw [nodes, nodes, hlayout.order]
  · funext id
    rw [place?, place?, hlayout.places]
  · funext number
    rw [byNumber?, byNumber?, hlayout.order]
  · funext path
    rw [byPath?, byPath?, hlayout.byPath]

theorem Alike.relabelled (h : t.Alike u) : t.Relabelled u := by
  refine relabelled_of_layout (fun id => ?_) h.roots h.layout h.depth
  have hid := congrArg (Option.map Node.unlabelled) (Table.anonymous_eq_iff.mp h.nodes id)
  rwa [Option.map_map, Option.map_map] at hid

/-- A tree that takes identities and options over stays as it was apart from them. -/
theorem Built.relabelled_reconcile [Hasher] (h : new.Built) (old : Tree) : (old.reconcile new).1.Relabelled new := by
  have hkinds := sameKinds_reconcile old new
  refine relabelled_of_layout (Table.map_unlabelled_foldl_adopt _ _) rfl ?_ rfl
  rw [h.layout]
  exact Layout.alike_ofRoots_of_children hkinds.children_eq hkinds.size_eq new.roots

/-! ## What is looked at -/

/-- The nodes of `t` are those of `u` with other indices: a node `id` of `t` is `f id` in `u`, with the same form,
texts, children, identity and options. Spans, comments, depths and nodes that are in neither tree are free. -/
structure Renumbered (f : Nat → Nat) (t u : Tree) : Prop where
  roots : u.roots = t.roots.map f
  node : ∀ id ∈ t.nodes, ∀ node, t.node? id = some node → ∃ node', u.node? (f id) = some node' ∧
    node'.kind = node.kind.map f ∧ node'.identity = node.identity ∧ node'.options = node.options

namespace Renumbered

variable (h : Renumbered f t u) (ht : t.Built) (hu : u.Built)

include h ht in
theorem children_eq (hid : id ∈ t.nodes) : u.children (f id) = (t.children id).map f := by
  obtain ⟨node, hnode⟩ := ht.exists_node? hid
  obtain ⟨node', hnode', hkind, -⟩ := h.node id hid node hnode
  have hchildren : t.children id = node.kind.children := by
    rw [children, Table.children, show t.table.get? id = some node from hnode]
  rw [hchildren, ← Kind.children_map, ← hkind, children, Table.children,
    show u.table.get? (f id) = some node' from hnode']

include h ht in
theorem adoptWhole_eq (hid : id ∈ t.nodes) (n : Nat) : u.table.adoptWhole (f id) n = t.table.adoptWhole id n := by
  obtain ⟨node, hnode⟩ := ht.exists_node? hid
  obtain ⟨node', hnode', -, hidentity, hoptions⟩ := h.node id hid node hnode
  rw [Table.adoptWhole, Table.adoptWhole, show u.table.get? (f id) = some node' from hnode',
    show t.table.get? id = some node from hnode, Option.map_some, Option.map_some, hidentity, hoptions]

include h ht hu

theorem content_eq : ∀ id ∈ t.nodes, u.table.content (f id) = t.table.content id := by
  refine ht.below_induction fun id hid ih => ?_
  obtain ⟨node, hnode⟩ := ht.exists_node? hid
  obtain ⟨node', hnode', hkind, -⟩ := h.node id hid node hnode
  rw [Table.content_of_get? hu.ordered hnode', Table.content_of_get? ht.ordered hnode, hkind, Kind.map_map]
  refine congrArg Content.mk (Kind.map_congr fun child hchild => ih child ?_)
  rwa [children, Table.children, show t.table.get? id = some node from hnode]

theorem descendants_eq : ∀ id ∈ t.nodes, u.descendants (f id) = (t.descendants id).map f := by
  refine ht.below_induction fun id hid ih => ?_
  obtain ⟨node, hnode⟩ := ht.exists_node? hid
  obtain ⟨node', hnode', -⟩ := h.node id hid node hnode
  have hbelow : u.descendants (f id) = f id :: (u.children (f id)).flatMap u.descendants :=
    Table.descendants_eq_cons hu.ordered (Table.exists_get?_iff_lt.mp ⟨node', hnode'⟩)
  rw [hbelow, h.children_eq ht hid, ht.descendants_eq hid, List.map_cons, List.flatMap_map, List.map_flatMap]
  exact congrArg _ (List.flatMap_congr ih)

/-- What the nodes below `n` take over from those below a node, they take over from those below it in the other tree, if
the nodes are told apart alike. -/
theorem table_adoptions_eq {same same' : Nat → Nat → Bool} (hsame : ∀ o ∈ t.nodes, same' (f o) = same o) (new : Table)
    (n : Nat) : ∀ o ∈ t.nodes, u.table.adoptions same' new (f o) n = t.table.adoptions same new o n := by
  induction n using Nat.strongRecOn with
  | ind n ih =>
    intro o hid
    obtain ⟨a, ha⟩ := ht.exists_node? hid
    obtain ⟨a', ha', hkind, hidentity, -⟩ := h.node o hid a ha
    rw [Table.adoptions, Table.adoptions, show u.table.get? (f o) = some a' from ha',
      show t.table.get? o = some a from ha, hsame o hid]
    cases new.get? n with
    | none => rfl
    | some b =>
      by_cases htold : same o n = true
      · simp only [if_pos htold]
        rw [show u.table.descendants (f o) = _ from h.descendants_eq ht hu o hid, List.zip_map_left,
          List.filterMap_map]
        refine List.filterMap_congr fun p hp => ?_
        have hbelow : p.1 ∈ t.descendants o := (List.of_mem_zip hp).1
        exact h.adoptWhole_eq ht (ht.descendants_subset o hid p.1 hbelow).1 p.2
      · simp only [if_neg htold, hkind, hidentity, Kind.tag_map]
        split
        · rfl
        · rw [Kind.pairs_map_left, List.flatMap_map]
          congr 1
          refine List.flatMap_congr fun p hp => ?_
          obtain ⟨s, hs, -⟩ := Kind.mem_pairs_iff.mp hp
          have hchild : p.1 ∈ t.children o := by
            rw [children, Table.children, show t.table.get? o = some a from ha]
            exact Kind.mem_children_iff.mpr ⟨s, hs⟩
          by_cases hlt : p.2 < n
          · simp only [Prod.map_fst, Prod.map_snd, id, if_pos hlt]
            exact ih p.2 hlt p.1 (ht.child_mem hid hchild)
          · simp only [Prod.map_snd, id, if_neg hlt]

variable [Hasher]

theorem number_eq (hid : id ∈ t.nodes) : u.table.classes.number (f id) = t.table.classes.number id := by
  obtain ⟨node, hnode⟩ := ht.exists_node? hid
  obtain ⟨node', hnode', -⟩ := h.node id hid node hnode
  rw [Table.number_of_get? hu.ordered hnode', Table.number_of_get? ht.ordered hnode, h.content_eq ht hu id hid]

theorem adoptions_eq (new : Tree) : u.adoptions new = t.adoptions new := by
  rw [adoptions, adoptions, h.roots, List.zip_map_left, List.flatMap_map]
  refine List.flatMap_congr fun p hp => ?_
  refine h.table_adoptions_eq ht hu (fun o hid => funext fun n => ?_) new.table p.2 p.1
    (ht.root_mem (List.of_mem_zip hp).1)
  rw [h.number_eq ht hu hid]

theorem reconcile_eq (new : Tree) : u.reconcile new = t.reconcile new := by
  rw [reconcile, reconcile, h.adoptions_eq ht hu]

end Renumbered

/-! ## Both -/

/-- A tree that takes over from an old one what it can is as it was but for identities and options. What it takes over
is decided by the forms, texts, identities and options of the old nodes, and the way they stand below the roots: it is
the same from every tree with these nodes under other indices, whatever their spans and comments are, what else is in
its table, and to which depth it is described. -/
theorem Made.relabelled_and_reconcile_eq [Hasher] (hn : new.Made) (ho : old.Made) :
    (old.reconcile new).1.Relabelled new ∧
      ∀ other f, other.Made → Renumbered f old other → other.reconcile new = old.reconcile new :=
  ⟨hn.built.relabelled_reconcile old, fun _ _ hother h => h.reconcile_eq ho.built hother.built new⟩

/-- The forest of one application to an argument, with spans and a comment, after a literal that is in no tree. -/
def ofCommentedCall (argument : String) : Tree :=
  let leaves := (((Builder.start 0).addLiteral (.empty .zero) "unused" "symbol").addLiteral
    ⟨⟨0, 1⟩, ⟨0, 2⟩⟩ "f" "symbol").addLiteral ⟨⟨0, 3⟩, ⟨0, 4⟩⟩ argument "symbol"
  let call := leaves.push ⟨⟨0, 0⟩, ⟨0, 5⟩⟩ (.application 1 [2]) (Options.labelled ("f of " ++ argument))
  ofTable (call.attach 1 ⟨⟨⟨1, 0⟩, ⟨1, 4⟩⟩, "; f"⟩).table [3] 5

theorem made_ofCommentedCall (argument : String) : (ofCommentedCall argument).Made := by
  have hunused := (Builder.Made.start 0).addLiteral (.empty .zero) "unused" "symbol"
  have hf := hunused.addLiteral ⟨⟨0, 1⟩, ⟨0, 2⟩⟩ "f" "symbol"
  have hleaves := hf.addLiteral ⟨⟨0, 3⟩, ⟨0, 4⟩⟩ argument "symbol"
  have hcall := hleaves.add (show Builder.add _ ⟨⟨0, 0⟩, ⟨0, 5⟩⟩ (.application 1 [2])
    (Options.labelled ("f of " ++ argument)) = .ok (Builder.push _ _ _ _) from rfl)
  exact .finish (hcall.attach 1 ⟨⟨⟨1, 0⟩, ⟨1, 4⟩⟩, "; f"⟩) (show Builder.finish _ [3] 5 = _ from rfl)

/-- The same application is read from both trees, though one has spans, a comment and an unused literal. -/
theorem Made.relabelled_and_reconcile_eq_ofCommentedCall :
    Renumbered (· + 1) (ofCall 1 "a") (ofCommentedCall "a") ∧
    (ofCommentedCall "a").span 1 ≠ (ofCall 1 "a").span 0 ∧ (ofCommentedCall "a").table.size = 4 ∧
    ((ofCall 1 "a").reconcile (ofCall 9 "b")).1.Relabelled (ofCall 9 "b") ∧
    (ofCommentedCall "a").reconcile (ofCall 9 "b") = (ofCall 1 "a").reconcile (ofCall 9 "b") := by
  have hnodes : (ofCall 1 "a").nodes = [2, 0, 1] := by
    rw [(made_ofCall 1 "a").built.nodes_eq]
    decide +kernel
  have hsame : Renumbered (· + 1) (ofCall 1 "a") (ofCommentedCall "a") := by
    refine ⟨rfl, fun id hid node hnode => ?_⟩
    simp only [hnodes, List.mem_cons, List.not_mem_nil, or_false] at hid
    rcases hid with rfl | rfl | rfl <;> cases hnode <;> exact ⟨_, rfl, rfl, rfl, rfl⟩
  obtain ⟨hrelabelled, heq⟩ := Made.relabelled_and_reconcile_eq (made_ofCall 9 "b") (made_ofCall 1 "a")
  exact ⟨hsame, by decide, rfl, hrelabelled, heq _ _ (made_ofCommentedCall "a") hsame⟩

end Tree

end StructuralEditor
