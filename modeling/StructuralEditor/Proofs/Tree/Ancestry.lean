import StructuralEditor.Proofs.Tree.DocumentOrder
import StructuralEditor.Tree.Navigation

/-!
# Nodes above each other

* `Tree.Built.nodes_induction`, `Tree.Built.below_induction` : induction from the roots down and from the leaves up;
* `Tree.Built.mem_descendants_iff` and the lemmas after it : what is below a node;
* `Tree.parent?_eq_some_iff`, `Tree.parent?_of_root` : the parent that paths lead to is the node that has this child;
* `Tree.Above` : one node is strictly above another; `Tree.above_child_iff` : above a child are its parent and what is
  above that.
-/

namespace StructuralEditor

theorem Path.parent?_child_child (p : Path) (index index' : Nat) :
    ((p.child index).child index').parent? = some (p.child index) := by
  unfold parent? child
  rw [List.dropLast_concat]
  cases p.segments <;> rfl

namespace Tree

variable {t : Tree} {id child x a : Nat}

theorem isEmpty_iff_nodes : t.isEmpty = true ↔ t.nodes = [] := by simp [isEmpty, nodes]

/-! ## Below a node -/

namespace Built

theorem descendants_eq (h : t.Built) (hid : id ∈ t.nodes) :
    t.descendants id = id :: (t.children id).flatMap t.descendants :=
  Table.descendants_eq_cons h.ordered (Table.exists_get?_iff_lt.mp (h.exists_node? hid))

theorem child_mem (h : t.Built) (hid : id ∈ t.nodes) (hchild : child ∈ t.children id) : child ∈ t.nodes := by
  obtain ⟨v, hv, rfl⟩ := h.mem_nodes_iff_walk.mp hid
  obtain ⟨index, hindex⟩ := List.mem_iff_getElem?.mp hchild
  exact h.mem_nodes_iff_walk.mpr ⟨_, Table.child_mem_walk h.ordered hv hindex, rfl⟩

theorem root_mem (h : t.Built) (hid : id ∈ t.roots) : id ∈ t.nodes := by
  obtain ⟨index, hindex⟩ := List.mem_iff_getElem?.mp hid
  exact h.mem_nodes_iff_walk.mpr ⟨_, Table.root_mem_walk h.ordered hindex, rfl⟩

theorem isEmpty_iff (h : t.Built) : t.isEmpty = true ↔ t.roots = [] := by
  rw [isEmpty_iff_nodes]
  constructor
  · intro hnil
    refine List.eq_nil_iff_forall_not_mem.mpr fun root hroot => ?_
    have hmem := h.root_mem hroot
    rw [hnil] at hmem
    cases hmem
  · intro hroots
    rw [h.nodes_eq, hroots]
    rfl

/-- What the roots have and every node hands down to its children, all nodes have. -/
theorem nodes_induction (h : t.Built) {P : Nat → Prop} (hroot : ∀ root ∈ t.roots, P root)
    (hchild : ∀ id ∈ t.nodes, P id → ∀ child ∈ t.children id, P child) : ∀ id ∈ t.nodes, P id := by
  intro id hid
  obtain ⟨v, hv, rfl⟩ := h.mem_nodes_iff_walk.mp hid
  refine Table.walk_induction h.ordered (P := fun v => P v.id) (fun index root hindex => ?_)
    (fun v hv hP index child hindex => ?_) v hv
  · exact hroot root (List.mem_of_getElem? hindex)
  · exact hchild v.id (h.mem_nodes_iff_walk.mpr ⟨v, hv, rfl⟩) hP child (List.mem_of_getElem? hindex)

/-- Induction over the nodes below a node: what each hands up to its parent. -/
theorem below_induction (h : t.Built) {P : Nat → Prop}
    (hP : ∀ id ∈ t.nodes, (∀ child ∈ t.children id, P child) → P id) : ∀ id ∈ t.nodes, P id := by
  intro id
  induction id using Nat.strongRecOn with
  | ind id ih =>
    intro hid
    exact hP id hid fun child hchild => ih child (h.ordered id child hchild) (h.child_mem hid hchild)

theorem mem_descendants_iff (h : t.Built) (hid : id ∈ t.nodes) :
    x ∈ t.descendants id ↔ x = id ∨ ∃ child ∈ t.children id, x ∈ t.descendants child := by
  rw [h.descendants_eq hid, List.mem_cons, List.mem_flatMap]

theorem descendants_subset (h : t.Built) : ∀ id ∈ t.nodes, ∀ x ∈ t.descendants id, x ∈ t.nodes ∧ x ≤ id := by
  refine h.below_induction fun id hid ih x hx => ?_
  rcases (h.mem_descendants_iff hid).mp hx with rfl | ⟨child, hchild, hx⟩
  · exact ⟨hid, Nat.le_refl x⟩
  · obtain ⟨hmem, hle⟩ := ih child hchild x hx
    exact ⟨hmem, Nat.le_trans hle (Nat.le_of_lt (h.ordered id child hchild))⟩

theorem self_mem_descendants (h : t.Built) (hid : id ∈ t.nodes) : id ∈ t.descendants id :=
  (h.mem_descendants_iff hid).mpr (.inl rfl)

theorem descendants_trans (h : t.Built) :
    ∀ id ∈ t.nodes, ∀ y ∈ t.descendants id, x ∈ t.descendants y → x ∈ t.descendants id := by
  refine h.below_induction fun id hid ih y hy hx => ?_
  rcases (h.mem_descendants_iff hid).mp hy with rfl | ⟨child, hchild, hy⟩
  · exact hx
  · exact (h.mem_descendants_iff hid).mpr (.inr ⟨child, hchild, ih child hchild y hy hx⟩)

theorem exists_root (h : t.Built) (hid : id ∈ t.nodes) : ∃ root ∈ t.roots, id ∈ t.descendants root := by
  rw [h.nodes_eq] at hid
  exact List.mem_flatMap.mp hid

/-- What is below a node is the node itself or a child of what is below it. -/
theorem mem_descendants_cases (h : t.Built) :
    ∀ id ∈ t.nodes, ∀ x ∈ t.descendants id, x = id ∨ ∃ y ∈ t.descendants id, x ∈ t.children y := by
  refine h.below_induction fun id hid ih x hx => ?_
  rcases (h.mem_descendants_iff hid).mp hx with rfl | ⟨child, hchild, hx⟩
  · exact .inl rfl
  · right
    rcases ih child hchild x hx with rfl | ⟨y, hy, hxy⟩
    · exact ⟨id, h.self_mem_descendants hid, hchild⟩
    · exact ⟨y, (h.mem_descendants_iff hid).mpr (.inr ⟨child, hchild, hy⟩), hxy⟩

end Built

/-! ## Parents -/

section Parent

variable (hb : t.Built) (hu : t.Unshared)

include hb hu

/-- The node at the path without its last segment is the one that was visited above. -/
theorem parent?_eq_parent (hid : id ∈ t.nodes) : t.parent? id = (t.place id).parent := by
  have hlaid := laidOut_of_built hb hu
  have hlookup : t.parent? id = (t.path id).parent?.bind t.byPath? := by
    rw [parent?, hlaid.placed id hid]
    rfl
  obtain ⟨index, -, hpath, -⟩ := hlaid.among id hid
  rw [hlookup, hpath]
  cases hparent : (t.place id).parent with
  | none => rfl
  | some above =>
    have habove := hlaid.parent_mem id hid above hparent
    obtain ⟨index', -, hpath', -⟩ := hlaid.among above habove
    show ((t.path above).child index).parent?.bind t.byPath? = some above
    rw [hpath', Path.parent?_child_child, ← hpath', Option.bind_some]
    exact (hlaid.byPath _ above).mpr ⟨habove, rfl⟩

theorem parent?_eq_some_iff (hid : id ∈ t.nodes) : t.parent? id = some a ↔ a ∈ t.nodes ∧ id ∈ t.children a := by
  rw [parent?_eq_parent hb hu hid]
  constructor
  · intro hparent
    have hlaid := laidOut_of_built hb hu
    obtain ⟨index, hindex, -⟩ := hlaid.among id hid
    rw [hparent] at hindex
    exact ⟨hlaid.parent_mem id hid a hparent, List.mem_of_getElem? hindex⟩
  · rintro ⟨ha, hchild⟩
    obtain ⟨v, hv, rfl⟩ := hb.mem_nodes_iff_walk.mp ha
    obtain ⟨index, hindex⟩ := List.mem_iff_getElem?.mp hchild
    exact parent_of_walk hb hu (Table.child_mem_walk hb.ordered hv hindex)

theorem parent?_of_root (hroot : id ∈ t.roots) : t.parent? id = none := by
  have hid := hb.root_mem hroot
  rw [parent?_eq_parent hb hu hid]
  exact (parent_eq_none_iff hb hu hid).mpr hroot

theorem level_child (hid : id ∈ t.nodes) (hchild : child ∈ t.children id) :
    (t.place child).level = (t.place id).level + 1 := by
  have hlaid := laidOut_of_built hb hu
  have hmem := hb.child_mem hid hchild
  have hparent := (parent?_eq_some_iff hb hu hmem).mpr ⟨hid, hchild⟩
  rw [parent?_eq_parent hb hu hmem] at hparent
  obtain ⟨index, -, hpath, -⟩ := hlaid.among child hmem
  rw [hparent] at hpath
  rw [hlaid.level child hmem, hlaid.level id hid, hpath]
  exact List.length_append

end Parent

/-! ## Above a node -/

/-- The node `a` is strictly above `id`. -/
structure Above (t : Tree) (a id : Nat) : Prop where
  mem : a ∈ t.nodes
  ne : a ≠ id
  below : id ∈ t.descendants a

theorem Above.lt (h : t.Above a id) (hb : t.Built) : id < a :=
  Nat.lt_of_le_of_ne (hb.descendants_subset a h.mem id h.below).2 h.ne.symm

theorem Above.trans (h : t.Above a id) (h' : t.Above id x) (hb : t.Built) : t.Above a x :=
  ⟨h.mem, Nat.ne_of_gt (Nat.lt_trans (h'.lt hb) (h.lt hb)), hb.descendants_trans a h.mem id h.below h'.below⟩

section Above

variable (hb : t.Built) (hu : t.Unshared)

include hb hu

theorem Above.exists_parent (h : t.Above a id) : ∃ above ∈ t.descendants a, t.parent? id = some above := by
  obtain ⟨ha, hne, hbelow⟩ := h
  rcases hb.mem_descendants_cases a ha id hbelow with rfl | ⟨above, habove, hchild⟩
  · exact absurd rfl hne
  · have hmem := (hb.descendants_subset a ha above habove).1
    exact ⟨above, habove, (parent?_eq_some_iff hb hu (hb.child_mem hmem hchild)).mpr ⟨hmem, hchild⟩⟩

theorem not_above_root (hroot : id ∈ t.roots) : ¬ t.Above a id := by
  intro h
  obtain ⟨above, -, hparent⟩ := h.exists_parent hb hu
  rw [parent?_of_root hb hu hroot] at hparent
  cases hparent

theorem above_child_iff (hid : id ∈ t.nodes) (hchild : child ∈ t.children id) :
    t.Above a child ↔ a = id ∨ t.Above a id := by
  have hmem := hb.child_mem hid hchild
  have hstep : t.Above id child := by
    refine ⟨hid, Nat.ne_of_gt (hb.ordered id child hchild), ?_⟩
    exact (hb.mem_descendants_iff hid).mpr (.inr ⟨child, hchild, hb.self_mem_descendants hmem⟩)
  constructor
  · intro h
    obtain ⟨above, habove, hparent⟩ := h.exists_parent hb hu
    rw [(parent?_eq_some_iff hb hu hmem).mpr ⟨hid, hchild⟩] at hparent
    cases hparent
    by_cases heq : a = id
    · exact .inl heq
    · exact .inr ⟨h.mem, heq, habove⟩
  · rintro (rfl | h)
    · exact hstep
    · exact h.trans hstep hb

theorem level_lt_of_above : ∀ id ∈ t.nodes, ∀ a, t.Above a id → (t.place a).level < (t.place id).level := by
  refine hb.nodes_induction (fun root hroot a ha => absurd ha (not_above_root hb hu hroot)) ?_
  intro id hid ih child hchild a ha
  rw [level_child hb hu hid hchild]
  rcases (above_child_iff hb hu hid hchild).mp ha with rfl | ha
  · exact Nat.lt_succ_self _
  · exact Nat.lt_succ_of_lt (ih a ha)

end Above

end Tree

end StructuralEditor
