import Mathlib.Data.List.TFAE
import Mathlib.Tactic.TFAE
import StructuralEditor.Proofs.Tree.Ancestry

/-!
# Ways to tell who is above whom

* `Tree.ancestorUpTo?_eq_some_iff`, `Tree.isAncestor_iff_above` : climbing from a node to the level of another;
* `Tree.leads_path_iff_above` : the path of one node leads on to that of the other;
* `Tree.Built.descendants_infix`, `Tree.mem_descendants_iff_number` : what is below a node follows it in document
  order without a gap;
* `Tree.Lineage`, `Tree.Made.lineage` : these ways agree.
-/

namespace StructuralEditor

namespace Path

variable {p q : Path} {index : Nat}

theorem leads_iff : p.leads q = true ↔ p.segments <+: q.segments := List.isPrefixOf_iff_prefix

theorem not_leads_empty_of_child : (p.child index).leads empty = false := by
  obtain ⟨segments⟩ := p
  cases segments <;> rfl

theorem leads_iff_eq_or_strict : p.leads q = true ↔ p = q ∨ p.leads q = true ∧ p ≠ q := by
  constructor
  · intro h
    by_cases heq : p = q
    · exact .inl heq
    · exact .inr ⟨h, heq⟩
  · rintro (rfl | ⟨h, -⟩)
    · exact leads_iff.mpr List.prefix_rfl
    · exact h

/-- What leads on to the path of a child leads to that of its parent. -/
theorem leads_child_and_ne_iff : p.leads (q.child index) = true ∧ p ≠ q.child index ↔ p.leads q = true := by
  obtain ⟨front⟩ := p
  rw [leads_iff, leads_iff, child, ne_eq, mk.injEq, List.prefix_concat_iff]
  constructor
  · rintro ⟨h | h, hne⟩
    · exact absurd h hne
    · exact h
  · intro h
    refine ⟨.inr h, ?_⟩
    rintro rfl
    have := h.length_le
    rw [List.length_append, List.length_singleton] at this
    omega

end Path

namespace Tree

variable {t : Tree} {id child u v : Nat}

theorem Built.descendants_infix (h : t.Built) : ∀ id ∈ t.nodes, t.descendants id <:+: t.nodes := by
  refine h.nodes_induction (fun root hroot => ?_) fun id hid ih child hchild => ?_
  · rw [h.nodes_eq]
    exact List.infix_flatMap_of_mem hroot t.descendants
  · have hbelow := List.infix_flatMap_of_mem hchild t.descendants
    rw [h.descendants_eq hid] at ih
    exact (hbelow.trans (List.suffix_cons _ _).isInfix).trans ih

section Unshared

variable (hb : t.Built) (hu : t.Unshared)

include hb hu

theorem parent_of_child (hid : id ∈ t.nodes) (hchild : child ∈ t.children id) :
    (t.place child).parent = some id := by
  have hmem := hb.child_mem hid hchild
  rw [← parent?_eq_parent hb hu hmem]
  exact (parent?_eq_some_iff hb hu hmem).mpr ⟨hid, hchild⟩

/-! ## Climbing -/

/-- Climbing from a node stops at the level of a node above it, which is then that node. -/
theorem ancestorUpTo?_eq_some_iff (a : Nat) :
    ∀ id ∈ t.nodes, t.ancestorUpTo? (t.place a).level id = some a ↔ t.Above a id := by
  refine hb.nodes_induction (fun root hroot => ?_) fun id hid ih child hchild => ?_
  · have hparent := (parent_eq_none_iff hb hu (hb.root_mem hroot)).mpr hroot
    rw [ancestorUpTo?, hparent]
    exact iff_of_false nofun (not_above_root hb hu hroot)
  · have hparent := parent_of_child hb hu hid hchild
    have hlt : child < id ∧ id < t.table.size :=
      ⟨hb.ordered id child hchild, Table.exists_get?_iff_lt.mp (hb.exists_node? hid)⟩
    rw [ancestorUpTo?, hparent, above_child_iff hb hu hid hchild]
    simp only [if_pos hlt]
    split
    · next hlevel =>
      have hnot : ¬ t.Above a id := fun habove => Nat.not_lt.mpr hlevel (level_lt_of_above hb hu id hid a habove)
      rw [Option.some_inj, or_iff_left hnot, eq_comm]
    · next hlevel =>
      have hne : a ≠ id := by
        rintro rfl
        exact hlevel (Nat.le_refl _)
      rw [ih, or_iff_right hne]

theorem isAncestor_iff_above (hmem : u ∈ t.nodes) (hv : v ∈ t.nodes) : t.isAncestor u v = true ↔ t.Above u v := by
  have hlt : ∀ {id}, id ∈ t.nodes → id < t.table.size := fun hid => Table.exists_get?_iff_lt.mp (hb.exists_node? hid)
  rw [isAncestor, decide_eq_true (hlt hmem), decide_eq_true (hlt hv), Bool.true_and, Bool.true_and, beq_iff_eq]
  exact ancestorUpTo?_eq_some_iff hb hu u v hv

/-! ## Paths -/

theorem exists_path_child (hid : id ∈ t.nodes) (hchild : child ∈ t.children id) :
    ∃ index, t.path child = (t.path id).child index := by
  obtain ⟨index, -, hpath, -⟩ := (laidOut_of_built hb hu).among child (hb.child_mem hid hchild)
  rw [parent_of_child hb hu hid hchild] at hpath
  exact ⟨index, hpath⟩

theorem exists_path_root (hroot : id ∈ t.roots) : ∃ index, t.path id = Path.empty.child index := by
  have hid := hb.root_mem hroot
  obtain ⟨index, -, hpath, -⟩ := (laidOut_of_built hb hu).among id hid
  rw [(parent_eq_none_iff hb hu hid).mpr hroot] at hpath
  exact ⟨index, hpath⟩

/-- The path of one node leads on to that of another if the one is above the other. -/
theorem leads_path_iff_above (hmem : u ∈ t.nodes) :
    ∀ id ∈ t.nodes, (t.path u).leads (t.path id) = true ∧ t.path u ≠ t.path id ↔ t.Above u id := by
  have hlaid := laidOut_of_built hb hu
  refine hb.nodes_induction (fun root hroot => ?_) fun id hid ih child hchild => ?_
  · obtain ⟨index, hpath⟩ := exists_path_root hb hu hroot
    obtain ⟨index', -, hpath', -⟩ := hlaid.among u hmem
    rw [hpath, Path.leads_child_and_ne_iff, hpath', Path.not_leads_empty_of_child]
    exact iff_of_false nofun (not_above_root hb hu hroot)
  · obtain ⟨index, hpath⟩ := exists_path_child hb hu hid hchild
    have hsame : t.path u = t.path id ↔ u = id := ⟨hlaid.path_inj u hmem id hid, congrArg t.path⟩
    rw [hpath, Path.leads_child_and_ne_iff, Path.leads_iff_eq_or_strict, ih, hsame,
      above_child_iff hb hu hid hchild]

/-! ## Document order -/

theorem take_drop_nodes (hid : id ∈ t.nodes) :
    (t.nodes.drop (t.place id).number).take (t.descendants id).length = t.descendants id := by
  obtain ⟨before, behind, hnodes⟩ := hb.descendants_infix id hid
  have hsplit : t.nodes = before ++ id :: ((t.children id).flatMap t.descendants ++ behind) := by
    rw [← hnodes, hb.descendants_eq hid, List.append_assoc, List.cons_append]
  rw [(place_of_nodes hb hu hsplit).1, ← hnodes, List.append_assoc, List.drop_left, List.take_left]

theorem getElem?_nodes_iff_number (hid : id ∈ t.nodes) (i : Nat) :
    t.nodes[i]? = some id ↔ (t.place id).number = i := by
  have hnumber := (laidOut_of_built hb hu).number
  constructor
  · exact fun h => (hnumber i id h).1
  · rintro rfl
    obtain ⟨i, hi⟩ := List.mem_iff_getElem?.mp hid
    rwa [(hnumber i id hi).1]

theorem mem_descendants_iff_number (hmem : u ∈ t.nodes) (hv : v ∈ t.nodes) :
    v ∈ t.descendants u ↔ (t.place u).number ≤ (t.place v).number ∧
      (t.place v).number < (t.place u).number + (t.descendants u).length := by
  have hat : ∀ i < (t.descendants u).length,
      (t.descendants u)[i]? = some v ↔ (t.place v).number = (t.place u).number + i := by
    intro i hi
    have hblock : _ = (t.descendants u)[i]? := congrArg (·[i]?) (take_drop_nodes hb hu hmem)
    rw [← hblock, List.getElem?_take_of_lt hi, List.getElem?_drop, getElem?_nodes_iff_number hb hu hv]
  constructor
  · intro hbelow
    obtain ⟨i, hi⟩ := List.mem_iff_getElem?.mp hbelow
    have hlt := (List.getElem?_eq_some_iff.mp hi).1
    have := (hat i hlt).mp hi
    omega
  · rintro ⟨hle, hlt⟩
    exact List.mem_of_getElem? ((hat ((t.place v).number - (t.place u).number) (by omega)).mpr (by omega))

theorem number_inj (hmem : u ∈ t.nodes) (hv : v ∈ t.nodes) : (t.place u).number = (t.place v).number ↔ u = v := by
  constructor
  · intro h
    have hat := (getElem?_nodes_iff_number hb hu hmem _).mpr h
    rw [(getElem?_nodes_iff_number hb hu hv _).mpr rfl] at hat
    exact (Option.some_inj.mp hat).symm
  · exact congrArg fun id => (t.place id).number

/-! ## Children -/

theorem firstChild?_eq_head? (hid : id ∈ t.nodes) : t.firstChild? id = (t.children id).head? := by
  have hlaid := laidOut_of_built hb hu
  have hfollow := (hlaid.byPath (t.path id) id).mpr ⟨hid, rfl⟩
  rw [hb.byPath?_eq_follow?] at hfollow
  have hchild := Table.follow?_child hfollow 0
  rw [← hb.byPath?_eq_follow?] at hchild
  rw [firstChild?, hlaid.placed id hid, List.head?_eq_getElem?]
  exact hchild

end Unshared

/-! ## All ways agree -/

/-- The ways to tell what is above and what is below a node agree: climbing, paths, the walk of what is below, and
numbers in document order; and so do the ways to its parent and to its first child. -/
structure Lineage (t : Tree) (u : Nat) : Prop where
  agree : ∀ v ∈ t.nodes, List.TFAE [
    t.isAncestor u v = true,
    (t.path u).leads (t.path v) = true ∧ t.path u ≠ t.path v,
    v ≠ u ∧ v ∈ t.descendants u,
    (t.place u).number < (t.place v).number ∧
      (t.place v).number < (t.place u).number + (t.descendants u).length]
  block : (t.nodes.drop (t.place u).number).take (t.descendants u).length = t.descendants u
  parent : t.parent? u = (t.place u).parent
  firstChild : t.firstChild? u = (t.children u).head?

/-- In every tree that a builder finishes without sharing a node, the ways agree on each of its nodes. -/
theorem Made.lineage (h : t.Made) (hu : t.Unshared) (hmem : u ∈ t.nodes) : t.Lineage u where
  agree := by
    intro v hv
    have hb := h.built
    have habove : t.Above u v ↔ v ≠ u ∧ v ∈ t.descendants u :=
      ⟨fun h => ⟨h.ne.symm, h.below⟩, fun h => ⟨hmem, h.1.symm, h.2⟩⟩
    tfae_have 1 ↔ 3 := (isAncestor_iff_above hb hu hmem hv).trans habove
    tfae_have 2 ↔ 3 := (leads_path_iff_above hb hu hmem v hv).trans habove
    tfae_have 3 ↔ 4 := by
      rw [mem_descendants_iff_number hb hu hmem hv, ne_eq, ← number_inj hb hu hv hmem]
      omega
    tfae_finish
  block := take_drop_nodes h.built hu hmem
  parent := parent?_eq_parent h.built hu hmem
  firstChild := firstChild?_eq_head? h.built hu hmem

/-- An application is above its argument: the argument is below it, so climbing from there ends at it. -/
theorem Made.lineage_ofCall : (ofCall 0 "a").Lineage 2 ∧ (ofCall 0 "a").isAncestor 2 1 = true := by
  have hb := (made_ofCall 0 "a").built
  have hu : (ofCall 0 "a").Unshared := unshared_of_nodup (by decide)
  have hcall : 2 ∈ (ofCall 0 "a").nodes := hb.root_mem (by decide)
  have hargument : 1 ∈ (ofCall 0 "a").children 2 := by decide
  have hmem := hb.child_mem hcall hargument
  have hlineage := Made.lineage (made_ofCall 0 "a") hu hcall
  have hbelow : 1 ≠ 2 ∧ 1 ∈ (ofCall 0 "a").descendants 2 :=
    ⟨by decide, (hb.mem_descendants_iff hcall).mpr (.inr ⟨1, hargument, hb.self_mem_descendants hmem⟩)⟩
  exact ⟨hlineage, ((hlineage.agree 1 hmem).out 2 0).mp hbelow⟩

end Tree

end StructuralEditor
