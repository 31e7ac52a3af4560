import StructuralEditor.Proofs.Tree.Ancestry
import StructuralEditor.Tree.Description

/-!
# Indices that are not in a tree

* `Layout.getElem?_places_foldl_of_notMem`, `Layout.exists_parent_of_places_foldl` : a node that no visit is of keeps
  the default place, and the parent of a place is that of a visit;
* `Tree.Built.place?_of_notMem`, `Tree.Built.lt_and_mem_of_parent` : a node that is not in the tree has the default
  place, and parents are in the tree, even where nodes are shared;
* `Tree.Missed`, `Tree.Made.missed` : what is not in a tree is not found, and nothing is found from it but a first child
  that it does not have.
-/

namespace StructuralEditor

/-! ## Recorded visits -/

namespace Layout

variable {t : Table} {vs : List Visit} {id : Nat}

theorem getElem?_places_foldl_of_notMem (hid : id ∉ vs.map (·.id)) :
    (vs.foldl (record t) (blank t)).places[id]? = (blank t).places[id]? := by
  induction vs using List.reverseRecOn with
  | nil => rfl
  | append_singleton vs v ih =>
    rw [List.map_append, List.mem_append, not_or] at hid
    have hv : v.id ≠ id := fun heq => hid.2 (by simp [heq])
    have hlast : (vs.map (·.id)).getLast? ≠ some id := fun heq => hid.1 (List.mem_of_getLast? heq)
    rw [List.foldl_append, List.foldl_cons, List.foldl_nil, getElem?_places_record, if_neg hv, back?_order_foldl,
      ih hid.1]
    simp only [if_neg hlast, Option.map_id']

/-- Wherever a node was visited last, its parent is that of a visit of it. -/
theorem exists_parent_of_places_foldl {place : Place} {above : Nat}
    (hplace : (vs.foldl (record t) (blank t)).places[id]? = some place) (habove : place.parent = some above) :
    ∃ v ∈ vs, v.id = id ∧ v.parent = some above := by
  induction vs using List.reverseRecOn generalizing place with
  | nil =>
    obtain rfl : ({} : Place) = place := by
      obtain ⟨hlt, heq⟩ := Array.getElem?_eq_some_iff.mp hplace
      simpa [blank] using heq
    cases habove
  | append_singleton vs v ih =>
    rw [List.foldl_append, List.foldl_cons, List.foldl_nil, getElem?_places_record] at hplace
    obtain ⟨former, hformer, rfl⟩ := Option.map_eq_some_iff.mp hplace
    have habove : former.parent = some above := by
      split at habove <;> exact habove
    by_cases hv : v.id = id
    · rw [if_pos hv] at hformer
      obtain ⟨_, -, rfl⟩ := Option.map_eq_some_iff.mp hformer
      exact ⟨v, by simp, hv, habove⟩
    · rw [if_neg hv] at hformer
      obtain ⟨w, hw, hid⟩ := ih hformer habove
      exact ⟨w, List.mem_append_left _ hw, hid⟩

end Layout

theorem Table.lt_size_of_mem_descendants {t : Table} (ho : t.Ordered) {id x : Nat} (hx : x ∈ t.descendants id) :
    x < t.size := by
  induction id using Nat.strongRecOn with
  | ind id ih =>
    by_cases hid : id < t.size
    · rw [descendants_eq_cons ho hid, List.mem_cons, List.mem_flatMap] at hx
      rcases hx with rfl | ⟨child, hchild, hx⟩
      · exact hid
      · exact ih child (ho id child hchild) hx
    · rw [descendants, if_neg hid] at hx
      cases hx

/-! ## Places -/

namespace Tree

variable {t : Tree} {id v above : Nat}

namespace Built

variable (h : t.Built)

include h

theorem place?_of_notMem (hid : id ∉ t.nodes) : t.place? id = if id < t.table.size then some {} else none := by
  rw [← h.map_id_walk] at hid
  rw [place?, h.layout, Layout.ofRoots, Layout.getElem?_places_foldl_of_notMem hid]
  simp [Layout.blank, Array.getElem?_replicate]

theorem place_of_notMem (hid : id ∉ t.nodes) : t.place id = {} := by
  rw [place, h.place?_of_notMem hid]
  split <;> rfl

/-- The parent of a node has been made after it, and is in the tree. -/
theorem lt_and_mem_of_parent (habove : (t.place id).parent = some above) : id < above ∧ above ∈ t.nodes := by
  cases hplace : t.place? id with
  | none =>
    rw [place, hplace] at habove
    cases habove
  | some place =>
    rw [Tree.place, hplace] at habove
    rw [place?, h.layout] at hplace
    obtain ⟨v, hv, rfl, hparent⟩ := Layout.exists_parent_of_places_foldl hplace habove
    rcases Table.mem_walk_cases h.ordered v hv with ⟨index, -, heq⟩ | ⟨w, hw, index, hindex, heq⟩
    · rw [heq] at hparent
      cases hparent
    · rw [heq] at hparent
      obtain rfl := Option.some.inj hparent
      exact ⟨h.ordered w.id v.id (List.mem_of_getElem? hindex), h.mem_nodes_iff_walk.mpr ⟨w, hw, rfl⟩⟩

theorem mem_of_ancestorUpTo? {level : Nat} (habove : t.ancestorUpTo? level id = some above) : above ∈ t.nodes := by
  fun_induction ancestorUpTo? t level id with
  | case1 id hparent => cases habove
  | case2 id parent hparent hlevel =>
    obtain rfl := Option.some.inj habove
    exact (h.lt_and_mem_of_parent hparent).2
  | case3 id parent hparent hlevel hguard ih => exact ih habove
  | case4 id parent hparent hlevel hguard => cases habove

theorem mem_of_byPath? {path : Path} (hid : t.byPath? path = some id) : id ∈ t.nodes := by
  rw [h.byPath?_eq_follow?, Table.follow?_eq_some_iff h.ordered] at hid
  obtain ⟨v, hv, -, rfl⟩ := hid
  exact h.mem_nodes_iff_walk.mpr ⟨v, hv, rfl⟩

end Built

theorem mem_of_byNumber? {number : Nat} (hid : t.byNumber? number = some id) : id ∈ t.nodes := by
  rw [byNumber?, ← Array.getElem?_toList] at hid
  exact List.mem_of_getElem? hid

/-! ## Queries -/

/-- What is not in the tree is no answer, and is nowhere above, below or next to a node. But if it is in the table it is
taken to be at the empty path, so that the first root is found as its first child. Queries only read what is in the
table, and climb upwards in it. Of the renderings, `source` looks whether the node is in the table; only this one is
covered, not the display of a node, which goes wrong outside the table. -/
structure Missed (t : Tree) (id : Nat) : Prop where
  parent : t.parent? id = none
  firstChild : t.firstChild? id = if id < t.table.size then t.firstRoot? else none
  next : t.next? id = none
  previous : t.previous? id = none
  notAbove : ∀ v, t.isAncestor id v = false
  notBelow : ∀ v, t.isAncestor v id = false
  roots : id ∉ t.roots
  byNumber : ∀ number, t.byNumber? number ≠ some id
  byPath : ∀ path, t.byPath? path ≠ some id
  byIdentity : ∀ identity, t.byIdentity? identity ≠ some id
  outside : t.table.size ≤ id → t.node? id = none ∧ t.children id = [] ∧ t.descendants id = [] ∧ t.label id = "" ∧
    t.source id = "" ∧ ∀ level, t.describe level id = ""
  inside : ∀ x ∈ t.descendants id, x < t.table.size
  climb : ∀ v above, (t.place v).parent = some above → v < above ∧ above < t.table.size

theorem Built.firstChild?_of_notMem (h : t.Built) (hid : id ∉ t.nodes) :
    t.firstChild? id = if id < t.table.size then t.firstRoot? else none := by
  have hfirst : t.byPath? (Path.empty.child 0) = t.firstRoot? := by
    rw [h.byPath?_eq_follow?, firstRoot?, List.head?_eq_getElem?]
    exact Table.follow?_root 0
  rw [firstChild?, h.place?_of_notMem hid]
  split
  · exact hfirst
  · rfl

theorem Built.isAncestor_of_notMem (h : t.Built) (hid : id ∉ t.nodes) (v : Nat) : t.isAncestor id v = false := by
  refine Bool.eq_false_iff.mpr fun habove => hid ?_
  rw [isAncestor, Bool.and_eq_true, beq_iff_eq] at habove
  exact h.mem_of_ancestorUpTo? habove.2

theorem Built.isAncestor_notMem (h : t.Built) (hid : id ∉ t.nodes) (v : Nat) : t.isAncestor v id = false := by
  have hnone : t.ancestorUpTo? (t.place v).level id = none := by
    rw [ancestorUpTo?, h.place_of_notMem hid]
  rw [isAncestor, hnone]
  simp

theorem outside_of_le (hid : t.table.size ≤ id) : t.node? id = none ∧ t.children id = [] ∧ t.descendants id = [] ∧
    t.label id = "" ∧ t.source id = "" ∧ ∀ level, t.describe level id = "" := by
  have hnode : t.node? id = none := by
    rw [← Option.not_isSome_iff_eq_none, isSome_node?_iff]
    exact Nat.not_lt.mpr hid
  have hchildren : t.children id = [] := by
    rw [children, Table.children, show t.table.get? id = none from hnode]
  have hdescendants : t.descendants id = [] := by
    rw [descendants, Table.descendants, if_neg (Nat.not_lt.mpr hid)]
  refine ⟨hnode, hchildren, hdescendants, ?_, ?_, fun level => ?_⟩
  · rw [label, hnode]
  · rw [source, Table.source, if_neg (Nat.not_lt.mpr hid)]
  · rw [describe, hnode]

/-- In every tree that a builder finishes, what is not in the tree is missed by all queries. -/
theorem Made.missed (h : t.Made) (hid : id ∉ t.nodes) : t.Missed id := by
  have hb := h.built
  have hplace := hb.place_of_notMem hid
  refine ⟨?_, hb.firstChild?_of_notMem hid, ?_, ?_, hb.isAncestor_of_notMem hid, hb.isAncestor_notMem hid,
    fun hroot => hid (hb.root_mem hroot), fun number heq => hid (mem_of_byNumber? heq),
    fun path heq => hid (hb.mem_of_byPath? heq), fun identity heq => hid (hb.byIdentity?_eq_some heq).1, outside_of_le,
    fun x => Table.lt_size_of_mem_descendants hb.ordered, fun v above habove => ?_⟩
  · rw [parent?, hb.place?_of_notMem hid]
    split <;> rfl
  · rw [next?, hplace]
  · rw [previous?, hplace]
  · obtain ⟨hlt, hmem⟩ := hb.lt_and_mem_of_parent habove
    exact ⟨hlt, Table.exists_get?_iff_lt.mp (hb.exists_node? hmem)⟩

/-- Two expressions of which only the first is in the tree. -/
def ofLoneRoot : Tree :=
  .ofTable (((Builder.start 0).addLiteral (.empty .zero) "a" "symbol").addLiteral (.empty .zero) "b" "symbol").table [0]
    defaultDepth

theorem made_ofLoneRoot : ofLoneRoot.Made := by
  have hleaves := ((Builder.Made.start 0).addLiteral (.empty .zero) "a" "symbol").addLiteral (.empty .zero) "b" "symbol"
  exact .finish hleaves (show Builder.finish _ [0] defaultDepth = _ from rfl)

theorem notMem_nodes_ofLoneRoot : 1 ∉ ofLoneRoot.nodes := by decide +kernel

/-- What was made for a tree but is not in it is missed, although the first root is found as its first child. -/
theorem Made.missed_ofLoneRoot : 1 ∉ ofLoneRoot.nodes ∧ ofLoneRoot.Missed 1 ∧ ofLoneRoot.firstChild? 1 = some 0 := by
  have hmissed := made_ofLoneRoot.missed notMem_nodes_ofLoneRoot
  exact ⟨notMem_nodes_ofLoneRoot, hmissed, hmissed.firstChild.trans (by decide)⟩

/-- Not everything that is not in a tree is without a first child in it. -/
theorem not_forall_firstChild?_eq_none :
    ¬ ∀ t : Tree, t.Made → ∀ id, id ∉ t.nodes → t.firstChild? id = none := by
  intro h
  have hnone := h ofLoneRoot made_ofLoneRoot 1 notMem_nodes_ofLoneRoot
  rw [made_ofLoneRoot.built.firstChild?_of_notMem notMem_nodes_ofLoneRoot] at hnone
  cases hnone

end Tree

end StructuralEditor
