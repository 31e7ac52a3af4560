import StructuralEditor.Proofs.Tree.Address

/-!
# What a layout depends on

* `Table.anonymous` : the nodes without their identities; `Layout.Alike`, `Tree.Alike` : layouts and trees that
  are the same but for identities;
* `Tree.alike_ofTable` : a forest has the same layout whatever the identities are;
* `Table.exists_mem_visits`, `Tree.isSome_byIdentity?` : the walk visits every node at an address, so that it is
  found by its identity.
-/

namespace StructuralEditor

def Node.anonymous (node : Node) : Node := { node with identity := default }

namespace Table

variable {t u : Table}

def anonymous (t : Table) : List Node := t.nodes.toList.map Node.anonymous

theorem getElem?_anonymous (t : Table) (id : Nat) : t.anonymous[id]? = (t.get? id).map Node.anonymous := by
  simp [anonymous, get?]

theorem length_anonymous (t : Table) : t.anonymous.length = t.size := by
  simp [anonymous, size]

theorem anonymous_eq_iff : t.anonymous = u.anonymous ↔
    ∀ id, (t.get? id).map Node.anonymous = (u.get? id).map Node.anonymous := by
  simp only [← getElem?_anonymous]
  exact ⟨fun h id => by rw [h], List.ext_getElem?⟩

theorem size_eq_of_anonymous (h : t.anonymous = u.anonymous) : t.size = u.size := by
  rw [← length_anonymous, h, length_anonymous]

theorem children_eq_of_anonymous (h : t.anonymous = u.anonymous) : t.children = u.children := by
  funext id
  have hid := anonymous_eq_iff.mp h id
  unfold children
  cases ht : t.get? id with
  | none =>
    rw [ht] at hid
    rw [Option.map_eq_none_iff.mp hid.symm]
  | some node =>
    rw [ht, Option.map_some] at hid
    obtain ⟨node', hu, hsame⟩ := Option.map_eq_some_iff.mp hid.symm
    rw [hu]
    exact congrArg (·.kind.children) hsame.symm

/-! ## Walks -/

theorem visits_eq (h : t.children = u.children) (v : Visit) : t.visits v = u.visits v := by
  induction hid : v.id using Nat.strongRecOn generalizing v with
  | ind id ih =>
    subst hid
    rw [visits, visits, h]
    congr 1
    refine List.flatMap_congr fun (child, index) _ => ?_
    by_cases hlt : child < v.id
    · simp only [if_pos hlt]
      exact ih child hlt _ rfl
    · simp only [if_neg hlt]

theorem walk_eq (h : t.children = u.children) (roots : List Nat) : t.walk roots = u.walk roots := by
  unfold walk
  exact List.flatMap_congr fun p _ => visits_eq h _

theorem exists_mem_visits (ho : t.Ordered) {v : Visit} {steps : List Step} {id : Nat}
    (h : t.below? v.id steps = some id) : ∃ w ∈ t.visits v, w.id = id := by
  induction steps generalizing v with
  | nil =>
    cases h
    rw [visits]
    exact ⟨v, List.mem_cons_self, rfl⟩
  | cons s rest ih =>
    obtain ⟨child, hchild, hrest⟩ := below?_cons_eq_some.mp h
    obtain ⟨node, hnode, hs⟩ := child?_eq_some.mp hchild
    have hmem : child ∈ t.children v.id := by
      rw [children, hnode]
      exact Kind.mem_children_iff.mpr ⟨s, hs⟩
    obtain ⟨index, hindex⟩ := List.mem_iff_getElem?.mp hmem
    obtain ⟨w, hw, hid⟩ := ih (v := v.child (t.children v.id).length index child) hrest
    refine ⟨w, ?_, hid⟩
    rw [visits]
    refine List.mem_cons_of_mem _ (List.mem_flatMap.mpr ⟨(child, index), ?_, ?_⟩)
    · exact List.mk_mem_zipIdx_iff_getElem?.mpr hindex
    · simp only [if_pos (lt_of_child? ho hchild)]
      exact hw

end Table

/-! ## Layouts -/

namespace Layout

variable {t u : Table}

/-- Layouts that are the same but for identities. -/
structure Alike (l m : Layout) : Prop where
  places : l.places = m.places
  order : l.order = m.order
  byPath : l.byPath = m.byPath

theorem Alike.record {l m : Layout} (h : l.Alike m) (v : Visit) : (record t l v).Alike (record u m v) where
  places := by simp only [Layout.record, h.places, h.order]
  order := by simp only [Layout.record, h.order]
  byPath := by simp only [Layout.record, h.byPath]

theorem Alike.foldl_record {l m : Layout} (h : l.Alike m) (vs : List Visit) :
    (vs.foldl (Layout.record t) l).Alike (vs.foldl (Layout.record u) m) := by
  induction vs generalizing l m with
  | nil => exact h
  | cons v vs ih => exact ih (h.record v)

/-- Nothing but the children of the nodes decides how they are laid out. -/
theorem alike_ofRoots_of_children (hchildren : t.children = u.children) (hsize : t.size = u.size)
    (roots : List Nat) : (ofRoots t roots).Alike (ofRoots u roots) := by
  unfold ofRoots
  rw [Table.walk_eq hchildren]
  have hblank : (blank t).Alike (blank u) := by
    refine ⟨?_, rfl, rfl⟩
    show Array.replicate t.size _ = Array.replicate u.size _
    rw [hsize]
  exact hblank.foldl_record _

theorem alike_ofRoots (h : t.anonymous = u.anonymous) (roots : List Nat) :
    (ofRoots t roots).Alike (ofRoots u roots) :=
  alike_ofRoots_of_children (Table.children_eq_of_anonymous h) (Table.size_eq_of_anonymous h) roots

theorem isSome_byIdentity_record {l : Layout} {v : Visit} {identity : Identity}
    (h : (l.byIdentity[identity]?).isSome ∨ ∃ node, t.get? v.id = some node ∧ node.identity = identity) :
    ((record t l v).byIdentity[identity]?).isSome := by
  unfold record
  rcases h with h | ⟨node, hnode, rfl⟩
  · cases t.get? v.id with
    | none => exact h
    | some node =>
      show ((l.byIdentity.insert node.identity v.id)[identity]?).isSome
      rw [Std.HashMap.getElem?_insert]
      split
      · rfl
      · exact h
  · simp [hnode]

theorem isSome_byIdentity_foldl {l : Layout} {vs : List Visit} {identity : Identity}
    (h : (l.byIdentity[identity]?).isSome ∨
      ∃ v ∈ vs, ∃ node, t.get? v.id = some node ∧ node.identity = identity) :
    ((vs.foldl (record t) l).byIdentity[identity]?).isSome := by
  induction vs generalizing l with
  | nil => simpa using h
  | cons v vs ih =>
    rw [List.foldl_cons]
    refine ih ?_
    rcases h with h | ⟨w, hw, hnode⟩
    · exact .inl (isSome_byIdentity_record (.inl h))
    · rcases List.mem_cons.mp hw with rfl | hw
      · exact .inl (isSome_byIdentity_record (.inr hnode))
      · exact .inr ⟨w, hw, hnode⟩

end Layout

/-! ## Trees -/

namespace Tree

variable {t u : Tree}

/-- Trees that are the same but for the identities of their nodes. -/
structure Alike (t u : Tree) : Prop where
  nodes : t.table.anonymous = u.table.anonymous
  roots : t.roots = u.roots
  layout : t.layout.Alike u.layout
  depth : t.depth = u.depth

theorem Alike.refl (t : Tree) : t.Alike t := ⟨rfl, rfl, ⟨rfl, rfl, rfl⟩, rfl⟩

theorem Alike.symm (h : t.Alike u) : u.Alike t where
  nodes := h.nodes.symm
  roots := h.roots.symm
  layout := ⟨h.layout.places.symm, h.layout.order.symm, h.layout.byPath.symm⟩
  depth := h.depth.symm

theorem Alike.trans {v : Tree} (h : t.Alike u) (h' : u.Alike v) : t.Alike v where
  nodes := h.nodes.trans h'.nodes
  roots := h.roots.trans h'.roots
  layout := ⟨h.layout.places.trans h'.layout.places, h.layout.order.trans h'.layout.order,
    h.layout.byPath.trans h'.layout.byPath⟩
  depth := h.depth.trans h'.depth

theorem alike_ofTable {t u : Table} (h : t.anonymous = u.anonymous) {roots roots' : List Nat}
    (hroots : roots = roots') (depth : Nat) : (ofTable t roots depth).Alike (ofTable u roots' depth) := by
  subst hroots
  exact ⟨h, rfl, Layout.alike_ofRoots h roots, rfl⟩

theorem exists_mem_walk (ho : t.table.Ordered) {a : Address} {id : Nat} (h : t.at? a = some id) :
    ∃ v ∈ t.table.walk t.roots, v.id = id := by
  obtain ⟨root, hroot, hbelow⟩ := at?_eq_some.mp h
  obtain ⟨v, hv, hid⟩ :=
    Table.exists_mem_visits ho (v := Visit.root t.roots.length a.root root) hbelow
  refine ⟨v, List.mem_flatMap.mpr ⟨(root, a.root), ?_, hv⟩, hid⟩
  exact List.mk_mem_zipIdx_iff_getElem?.mpr hroot

theorem isSome_byIdentity? (ho : t.table.Ordered) (hlayout : t.layout = Layout.ofRoots t.table t.roots)
    {a : Address} {id : Nat} {node : Node} (hat : t.at? a = some id) (hnode : t.node? id = some node) :
    (t.byIdentity? node.identity).isSome := by
  obtain ⟨v, hv, rfl⟩ := exists_mem_walk ho hat
  rw [byIdentity?, hlayout]
  exact Layout.isSome_byIdentity_foldl (.inr ⟨v, hv, node, hnode, rfl⟩)

end Tree

end StructuralEditor
