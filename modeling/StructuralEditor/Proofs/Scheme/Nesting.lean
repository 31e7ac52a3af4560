import StructuralEditor.Proofs.Scheme.DraftLayout
import StructuralEditor.Proofs.Scheme.Serving
import StructuralEditor.Proofs.Tree.Ancestry

/-!
# Nodes within each other

* `Tree.LaidAt` : where the children of a node stand;
* `Tree.Nested` : the nodes of a tree stand in order within each other;
* `Tree.Nested.covers`, `Tree.Nested.pairwise_nodes` : what is below a node lies within it, and of two nodes that come
  one after the other, the second is below the first or behind it.
-/

namespace StructuralEditor

open Scheme

variable {S : Span → Prop} {rs : List Remark}

theorem Scheme.Draft.Laid.child {d c : Draft} (h : d.Laid S rs) (hc : c ∈ d.kind.children) : c.Laid S rs := by
  cases h with
  | plain _ _ _ _ below => exact below c hc
  | gathered _ _ _ _ _ _ below => exact below c hc
  | vacant _ _ _ _ => cases hc

/-! ## Spelled trees -/

namespace Kind

variable {α β : Type} {f : α → β} {m : Kind α}

theorem map_eq_functionDefinition {a b c : β} (h : m.map f = .functionDefinition a b c) :
    ∃ a' b' c', m = .functionDefinition a' b' c' ∧ f a' = a ∧ f b' = b ∧ f c' = c := by
  cases m <;> simp_all [map]

theorem map_eq_identifiers_nil {role : String} (h : m.map f = .identifiers role []) : m = .identifiers role [] := by
  cases m <;> simp_all [map]

end Kind

namespace Table

variable {t : Table} {id : Nat} {d : Draft}

theorem Spells.exists_children (h : t.Spells id d) : ∃ ps : List (Draft × Nat),
    d.kind.children = ps.map Prod.fst ∧ t.children id = ps.map Prod.snd ∧ ∀ p ∈ ps, t.Spells p.2 p.1 := by
  cases h with
  | @mk id node span label m here _ hkind _ _ below =>
    refine ⟨m.children, Kind.children_map _ _, ?_, below⟩
    rw [children, here]
    show node.kind.children = _
    rw [hkind, Kind.children_map]

theorem Spells.exists_get? (h : t.Spells id d) : ∃ (node : Node) (m : Kind (Draft × Nat)), t.get? id = some node ∧
    node.span = d.span ∧ node.kind = m.map Prod.snd ∧ d.kind = m.map Prod.fst ∧ ∀ p ∈ m.children, t.Spells p.2 p.1 := by
  cases h with
  | @mk id node span label m here hspan hkind _ _ below => exact ⟨node, m, here, hspan, hkind, rfl, below⟩

end Table

theorem Scheme.Spelled.built {t : Tree} {drafts : List Draft} (h : Spelled t drafts) : t.Built where
  ordered := h.ordered
  roots_lt := fun _ hroot => List.mem_range.mp (h.listed.mem_iff.mp (List.mem_append_left _ hroot))
  layout := h.layout

theorem Scheme.Spelled.exists_draft {t : Tree} {drafts : List Draft} (h : Spelled t drafts) {root : Nat}
    (hroot : root ∈ t.roots) : ∃ d ∈ drafts, t.table.Spells root d := by
  obtain ⟨i, hi, rfl⟩ := List.getElem_of_mem hroot
  have hi' : i < drafts.length := h.roots.length_eq ▸ hi
  exact ⟨drafts[i], List.getElem_mem hi', h.roots.get hi hi'⟩

namespace Tree

variable {t : Tree} {id child x : Nat}

theorem span_of_node? {node : Node} (h : t.node? id = some node) : t.span id = node.span := by
  rw [span, h, Option.map_some, Option.getD_some]

theorem children_of_node? {node : Node} (h : t.node? id = some node) : t.children id = node.kind.children := by
  rw [Tree.children, Table.children, show t.table.get? id = some node from h]

theorem span_of_spells {d : Draft} (h : t.table.Spells id d) : t.span id = d.span := by
  obtain ⟨node, -, hnode, hspan, -⟩ := h.exists_get?
  rw [span_of_node? hnode, hspan]

theorem map_span_of_spells {ps : List (Draft × Nat)} (h : ∀ p ∈ ps, t.table.Spells p.2 p.1) :
    (ps.map Prod.snd).map t.span = (ps.map Prod.fst).map Draft.span := by
  rw [List.map_map, List.map_map]
  exact List.map_congr_left fun p hp => span_of_spells (h p hp)

/-! ## Nested trees -/

/-- Where the children of a node stand: within the stretch of a datum, with their comments; from end to end of the
node, if it gathers them; or nowhere, if it is the list of no parameters. -/
inductive LaidAt (t : Tree) (S : Span → Prop) (rs : List Remark) (id : Nat) : Prop
  | plain (here : S (t.span id)) (inside : ∀ child ∈ t.children id, Encloses rs (t.span id) (t.span child))
    (filled : (∀ child ∈ t.children id, (t.span child).start < (t.span child).stop) ∨
      ∃ node name parameters body, t.node? id = some node ∧ node.kind = .functionDefinition name parameters body ∧
        (t.span name).start < (t.span name).stop ∧ (t.span body).start < (t.span body).stop ∧ t.children name = [] ∧
        ((t.span parameters).start = (t.span parameters).stop → (t.span parameters).start = (t.span name).stop))
  | gathered (first : Nat) (rest : List Nat) (hchildren : t.children id = first :: rest)
    (hstart : (t.span first).start = (t.span id).start)
    (hstop : ∃ child ∈ t.children id, (t.span child).stop = (t.span id).stop)
    (covers : ∀ child ∈ t.children id, (t.span id).Covers (t.span child))
    (filled : ∀ child ∈ t.children id, (t.span child).start < (t.span child).stop)
  | vacant (s : Span) (here : S s) (free : ∀ c, ¬ Belongs rs s.stop c) (hspan : t.span id = Span.empty s.stop)
    (role : String) (node : Node) (hnode : t.node? id = some node) (hkind : node.kind = .identifiers role [])

/-- The nodes of the tree stand in order within each other. -/
structure Nested (t : Tree) (S : Span → Prop) (rs : List Remark) : Prop where
  built : t.Built
  unshared : t.Unshared
  proper : ∀ s, S s → s.start < s.stop
  laid : ∀ id ∈ t.nodes, t.LaidAt S rs id
  apart : ∀ id ∈ t.nodes, (t.children id).Pairwise fun a b => Apart rs (t.span a) (t.span b)
  roots : t.roots.Pairwise fun a b => (t.span a).stop ≤ (t.span b).start

theorem laidAt_of_spells {d : Draft} (h : t.table.Spells id d) (hd : d.Laid S rs) :
    t.LaidAt S rs id ∧ (t.children id).Pairwise fun a b => Apart rs (t.span a) (t.span b) := by
  obtain ⟨node, m, hnode, hspan, hkind, hdkind, hbelow⟩ := h.exists_get?
  have hid : t.span id = d.span := span_of_spells h
  have hchildren : t.children id = m.children.map Prod.snd := by
    rw [children_of_node? hnode, hkind, Kind.children_map]
  have hdchildren : d.kind.children = m.children.map Prod.fst := by rw [hdkind, Kind.children_map]
  have hspans := map_span_of_spells hbelow
  rw [← hchildren, ← hdchildren] at hspans
  have hpairwise : d.kind.children.Pairwise (fun d e => Apart rs d.span e.span) →
      (t.children id).Pairwise fun a b => Apart rs (t.span a) (t.span b) := by
    intro hp
    rw [← List.pairwise_map (f := t.span), hspans, List.pairwise_map]
    exact hp
  have hforall : ∀ {Q : Span → Prop}, (∀ c ∈ d.kind.children, Q c.span) →
      ∀ child ∈ t.children id, Q (t.span child) := by
    intro Q hQ child hchild
    have hmem := List.mem_map_of_mem (f := t.span) hchild
    rw [hspans] at hmem
    obtain ⟨c, hc, heq⟩ := List.mem_map.mp hmem
    exact heq ▸ hQ c hc
  cases hd with
  | plain here inside apart filled below =>
    refine ⟨.plain (hid ▸ here) (hid ▸ hforall inside) ?_, hpairwise apart⟩
    rcases filled with filled | ⟨name, parameters, body, rfl, hname, hbody, hleaf, hempty⟩
    · exact .inl (hforall (Q := fun s => s.start < s.stop) filled)
    · obtain ⟨name', parameters', body', rfl, rfl, rfl, rfl⟩ := Kind.map_eq_functionDefinition hdkind.symm
      have hname' := hbelow name' (by simp [Kind.children, Kind.fields, Field.nodes])
      have hparameters' := hbelow parameters' (by simp [Kind.children, Kind.fields, Field.nodes])
      have hbody' := hbelow body' (by simp [Kind.children, Kind.fields, Field.nodes])
      refine .inr ⟨node, name'.2, parameters'.2, body'.2, hnode, hkind, ?_, ?_, ?_, ?_⟩
      · rw [span_of_spells hname']
        exact hname
      · rw [span_of_spells hbody']
        exact hbody
      · obtain ⟨ps, hfst, hsnd, -⟩ := hname'.exists_children
        rw [hleaf] at hfst
        rw [show t.children name'.2 = _ from hsnd, List.map_eq_nil_iff.mp hfst.symm, List.map_nil]
      · rw [span_of_spells hparameters', span_of_spells hname']
        exact hempty
  | @gathered span label kind first rest hcons hstart hstop covers filled apart below =>
    have hcons' : kind.children.map Draft.span = first.span :: rest.map Draft.span := by rw [hcons, List.map_cons]
    obtain ⟨first', rest', hids, hfirst, -⟩ := List.map_eq_cons_iff.mp (hspans.trans hcons')
    refine ⟨.gathered first' rest' hids ?_ ?_ (hid ▸ hforall covers) ?_, hpairwise apart⟩
    · rw [hfirst, hid]
      exact hstart
    · obtain ⟨c, hc, hstop⟩ := hstop
      have hmem : c.span ∈ (t.children id).map t.span := hspans ▸ List.mem_map_of_mem hc
      obtain ⟨child, hchild, heq⟩ := List.mem_map.mp hmem
      exact ⟨child, hchild, by rw [heq, hid]; exact hstop⟩
    · exact hforall (Q := fun s => s.start < s.stop) filled
  | @vacant s here free label role =>
    obtain rfl := Kind.map_eq_identifiers_nil hdkind.symm
    exact ⟨.vacant s here free hid role node hnode hkind, hpairwise .nil⟩

theorem nested_of_spelled {drafts : List Draft} (h : Spelled t drafts) (hproper : ∀ s, S s → s.start < s.stop)
    (hlaid : ∀ d ∈ drafts, d.Laid S rs) (hroots : drafts.Pairwise fun d e => d.span.stop ≤ e.span.start) :
    t.Nested S rs := by
  have hbuilt := h.built
  have hspells : ∀ id ∈ t.nodes, ∃ d, t.table.Spells id d ∧ d.Laid S rs := by
    refine hbuilt.nodes_induction (fun root hroot => ?_) fun id _ hid child hchild => ?_
    · obtain ⟨d, hd, hspells⟩ := h.exists_draft hroot
      exact ⟨d, hspells, hlaid d hd⟩
    · obtain ⟨d, hspells, hd⟩ := hid
      obtain ⟨ps, hfst, hsnd, hbelow⟩ := hspells.exists_children
      rw [show t.children id = _ from hsnd] at hchild
      obtain ⟨p, hp, rfl⟩ := List.mem_map.mp hchild
      refine ⟨p.1, hbelow p hp, hd.child ?_⟩
      rw [hfst]
      exact List.mem_map_of_mem hp
  have hspans : t.roots.map t.span = drafts.map Draft.span :=
    map_eq_map_of_forall₂ (h.roots.imp fun _ _ => span_of_spells)
  refine ⟨hbuilt, h.unshared, hproper, fun id hid => ?_,
    fun id hid => ?_, ?_⟩
  · obtain ⟨d, hspells, hd⟩ := hspells id hid
    exact (laidAt_of_spells hspells hd).1
  · obtain ⟨d, hspells, hd⟩ := hspells id hid
    exact (laidAt_of_spells hspells hd).2
  · rw [← List.pairwise_map (R := fun s s' : Span => s.stop ≤ s'.start), hspans, List.pairwise_map]
    exact hroots

namespace Nested

variable (h : t.Nested S rs)

include h

/-- Only the list of no parameters is empty; no comment belongs there. -/
theorem filled_or_vacant (hid : id ∈ t.nodes) : (t.span id).start < (t.span id).stop ∨
    ∃ s : Span, (∀ c, ¬ Belongs rs s.stop c) ∧ t.span id = Span.empty s.stop ∧ t.children id = [] := by
  cases h.laid id hid with
  | plain here _ _ => exact .inl (h.proper _ here)
  | gathered first _ hchildren _ _ covers filled =>
    have hfirst : first ∈ t.children id := hchildren ▸ List.mem_cons_self
    exact .inl ((covers first hfirst).1.trans_lt ((filled first hfirst).trans_le (covers first hfirst).2))
  | vacant s _ free hspan _ node hnode hkind =>
    refine .inr ⟨s, free, hspan, ?_⟩
    rw [children_of_node? hnode, hkind]
    rfl

theorem start_le_stop (hid : id ∈ t.nodes) : (t.span id).start ≤ (t.span id).stop := by
  rcases h.filled_or_vacant hid with hlt | ⟨s, -, hspan, -⟩
  · exact hlt.le
  · rw [hspan]
    exact le_rfl

theorem covers_child (hid : id ∈ t.nodes) (hchild : child ∈ t.children id) :
    (t.span id).Covers (t.span child) := by
  cases h.laid id hid with
  | plain _ inside _ => exact ⟨(inside child hchild).start.le, (inside child hchild).stop.le⟩
  | gathered _ _ _ _ _ covers _ => exact covers child hchild
  | vacant _ _ _ _ _ _ hnode hkind =>
    rw [children_of_node? hnode, hkind] at hchild
    cases hchild

theorem covers : ∀ id ∈ t.nodes, ∀ x ∈ t.descendants id, (t.span id).Covers (t.span x) := by
  refine h.built.below_induction fun id hid ih x hx => ?_
  rcases (h.built.mem_descendants_iff hid).mp hx with rfl | ⟨child, hchild, hx⟩
  · exact ⟨le_rfl, le_rfl⟩
  · exact (h.covers_child hid hchild).trans (ih child hchild x hx)

/-- What is below nodes in a row, in document order: of two nodes the second is below the first or behind it. -/
theorem pairwise_flatMap {ids : List Nat} (hids : ∀ id ∈ ids, id ∈ t.nodes)
    (hrow : ids.Pairwise fun a b => (t.span a).stop ≤ (t.span b).start)
    (hdown : ∀ id ∈ ids,
      (t.descendants id).Pairwise fun a b => b ∈ t.descendants a ∨ (t.span a).stop ≤ (t.span b).start) :
    (ids.flatMap t.descendants).Pairwise fun a b => b ∈ t.descendants a ∨ (t.span a).stop ≤ (t.span b).start := by
  refine List.pairwise_flatMap.mpr ⟨hdown, hrow.imp_of_mem fun {a b} ha hb hab x hx y hy => .inr ?_⟩
  have hx := h.covers a (hids a ha) x hx
  have hy := h.covers b (hids b hb) y hy
  exact hx.2.trans (hab.trans hy.1)

theorem pairwise_descendants : ∀ id ∈ t.nodes,
    (t.descendants id).Pairwise fun a b => b ∈ t.descendants a ∨ (t.span a).stop ≤ (t.span b).start := by
  refine h.built.below_induction fun id hid ih => ?_
  rw [h.built.descendants_eq hid]
  refine .cons (fun x hx => .inl ?_) (h.pairwise_flatMap (fun child => h.built.child_mem hid) ?_ ih)
  · rw [h.built.descendants_eq hid]
    exact List.mem_cons_of_mem _ hx
  · exact (h.apart id hid).imp Apart.apart

/-- Of two nodes in document order, the second is below the first or behind it. -/
theorem pairwise_nodes : t.nodes.Pairwise fun a b => b ∈ t.descendants a ∨ (t.span a).stop ≤ (t.span b).start := by
  rw [h.built.nodes_eq]
  exact h.pairwise_flatMap (fun root => h.built.root_mem) h.roots fun root hroot =>
    h.pairwise_descendants root (h.built.root_mem hroot)

theorem pairwise_start : t.nodes.Pairwise fun a b => (t.span a).start ≤ (t.span b).start := by
  refine h.pairwise_nodes.imp_of_mem fun {a b} ha hb hab => ?_
  rcases hab with hab | hab
  · exact (h.covers a ha b hab).1
  · exact (h.start_le_stop ha).trans hab

end Nested

end Tree

end StructuralEditor
