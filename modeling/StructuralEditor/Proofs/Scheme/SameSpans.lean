import StructuralEditor.Proofs.Scheme.ParsedSpans
import StructuralEditor.Proofs.Tree.Splitting

/-!
# Nodes with the same span

A node has the span of another where it gathers one child only, and then it stands above that child. The empty spans are
those of missing parameters: two functions that have theirs at the same position would both stand around it, one within
the other, and that one within a neighbour of the parameters.

* `Tree.Nested.eq_of_around`, `Tree.Nested.eq_of_vacant` : no two nodes are empty at the same position;
* `Tree.Nested.inOrder` : document order is the order of starts, and outer nodes come before inner ones;
* `splitAt_and_chainAt_of_parse` : the scans from a position, and the nodes with a given span, in a parsed tree.
-/

namespace StructuralEditor

open Scheme

namespace Tree.Nested

variable {t : Tree} {S : Span → Prop} {rs : List Remark} {a b outer inner : Nat} (h : t.Nested S rs)

include h

/-- Around an empty node only its parent and what is above that stand. -/
theorem eq_of_around (houter : outer ∈ t.nodes) (ha : a ∈ t.children outer)
    (hempty : (t.span a).start = (t.span a).stop) (hinner : inner ∈ t.descendants outer)
    (hstart : (t.span inner).start < (t.span a).start) (hstop : (t.span a).stop < (t.span inner).stop) :
    inner = outer := by
  rcases (h.built.mem_descendants_iff houter).mp hinner with rfl | ⟨child, hchild, hbelow⟩
  · rfl
  · -- The way down goes through a neighbour of the empty node, or the node itself, but neither stands around it.
    have hcovers := h.covers child (h.built.child_mem houter hchild) inner hbelow
    have hlow := hcovers.1.trans_lt hstart
    have hhigh := hstop.trans_le hcovers.2
    rcases pairwise_cases (h.apart outer houter) hchild ha with rfl | hapart | hapart
    · exact absurd hlow (lt_irrefl _)
    · exact absurd (hempty ▸ hhigh) (not_lt.mpr hapart.apart)
    · exact absurd (hempty ▸ hlow) (not_lt.mpr hapart.apart)

variable (hroots : ∀ root ∈ t.roots, (t.span root).start < (t.span root).stop)

include hroots

/-- An empty node is the parameters of a function that stands around it. -/
theorem exists_function_of_vacant (ha : a ∈ t.nodes) (hempty : (t.span a).start = (t.span a).stop) :
    ∃ above ∈ t.nodes, a ∈ t.children above ∧ (∃ node name body, t.node? above = some node ∧
      node.kind = .functionDefinition name a body) ∧
      (t.span above).start < (t.span a).start ∧ (t.span a).stop < (t.span above).stop := by
  rcases h.filled_or_parameters hroots a ha with hlt | ⟨-, above, habove, node, name, body, hnode, hkind, -⟩
  · exact absurd hempty hlt.ne
  · have hchild : a ∈ t.children above := by
      rw [children_of_node? hnode, hkind]
      simp [Kind.children, Kind.fields, Field.nodes]
    refine ⟨above, habove, hchild, ⟨node, name, body, hnode, hkind⟩, ?_⟩
    cases h.laid above habove with
    | plain _ inside _ => exact ⟨(inside a hchild).start, (inside a hchild).stop⟩
    | gathered _ _ _ _ _ _ filled => exact absurd hempty (filled a hchild).ne
    | vacant _ _ _ _ _ node' hnode' hkind' =>
      obtain rfl : node = node' := Option.some_inj.mp (hnode.symm.trans hnode')
      rw [hkind] at hkind'
      cases hkind'

theorem eq_of_vacant (ha : a ∈ t.nodes) (hb : b ∈ t.nodes) (hspan : t.span a = t.span b)
    (hempty : (t.span a).start = (t.span a).stop) : a = b := by
  obtain ⟨above, habove, hchild, ⟨node, name, body, hnode, hkind⟩, hstart, hstop⟩ :=
    h.exists_function_of_vacant hroots ha hempty
  rw [hspan] at hempty
  obtain ⟨above', habove', hchild', ⟨node', name', body', hnode', hkind'⟩, hstart', hstop'⟩ :=
    h.exists_function_of_vacant hroots hb hempty
  have hsame : above = above' := by
    rcases pairwise_cases h.pairwise_nodes habove habove' with heq | (hbelow | hapart) | hbelow | hapart
    · exact heq
    · exact (h.eq_of_around habove hchild (hspan ▸ hempty) hbelow (hspan ▸ hstart') (hspan ▸ hstop')).symm
    · rw [hspan] at hstop
      order
    · exact h.eq_of_around habove' hchild' hempty hbelow (hspan ▸ hstart) (hspan ▸ hstop)
    · rw [hspan] at hstart
      order
  subst hsame
  obtain rfl : node = node' := Option.some_inj.mp (hnode.symm.trans hnode')
  rw [hkind] at hkind'
  injection hkind'

theorem inOrder : t.InOrder where
  starts := h.pairwise_start
  chains := by
    refine (h.pairwise_nodes.and (h.built.nodup_nodes h.unshared)).imp_of_mem fun {a b} ha hb hab hspan => ?_
    rcases hab with ⟨hbelow | hapart, hne⟩
    · exact hbelow
    · -- The second starts behind the first, so with the same span both are empty.
      rw [← hspan] at hapart
      exact absurd (h.eq_of_vacant hroots ha hb hspan ((h.start_le_stop ha).antisymm hapart)) hne

omit hroots in
theorem pairwise_start_roots : t.roots.Pairwise fun a b => (t.span a).start ≤ (t.span b).start :=
  h.roots.imp_of_mem fun ha _ hab => (h.start_le_stop (h.built.root_mem ha)).trans hab

end Tree.Nested

namespace Scheme

theorem inOrder_of_parse {depth serial : Nat} {source : String} {t : Tree} (h : parse depth serial source = .ok t) :
    t.InOrder := by
  obtain ⟨tokens, items, -, -, hparsed⟩ := parsed_of_parse h
  exact hparsed.nested.inOrder fun root hroot => (hparsed.root_proper hroot).2.2

/-- Every cursor splits a parsed tree in two, in the same way for both scans, and the nodes with a given span stand
below each other, the outermost of them found. -/
theorem splitAt_and_chainAt_of_parse {depth serial : Nat} {source : String} {t : Tree}
    (h : parse depth serial source = .ok t) : (∀ p, t.SplitAt p) ∧ ∀ s, t.ChainAt s := by
  obtain ⟨tokens, items, -, -, hparsed⟩ := parsed_of_parse h
  have horder := inOrder_of_parse h
  have hb := hparsed.nested.built
  have hu := hparsed.nested.unshared
  exact ⟨horder.splitAt hb hu hparsed.nested.pairwise_start_roots, horder.chainAt hb hu⟩

/-- Missing parameters follow the name of the function, and a body of one expression is found before the expression. -/
theorem splitAt_and_chainAt_of_parse_thunk : ∃ t, parse 1 0 "(define (f) (g)) (when q y) ;c" = .ok t ∧
    t.before? ⟨0, 10⟩ = some 0 ∧ t.next? 0 = some 1 ∧ t.span 1 = Span.empty ⟨0, 10⟩ ∧ t.SplitAt ⟨0, 10⟩ ∧
    t.span 6 = t.span 7 ∧ t.Outermost (t.span 6) 7 ∧ t.isAncestor 7 6 = true := by
  have hok : ∃ t ∈ (parse 1 0 "(define (f) (g)) (when q y) ;c").toOption, t.before? ⟨0, 10⟩ = some 0 ∧
      t.atOrAfter? ⟨0, 10⟩ = some 1 ∧ t.span 1 = Span.empty ⟨0, 10⟩ ∧ 6 ∈ t.nodes ∧ t.span 6 = t.span 7 ∧
      t.exactly? (t.span 6).start (t.span 6).stop = some 7 := by decide +kernel
  obtain ⟨t, ht, hbefore, hafter, hempty, hmem, hspan, hfound⟩ := hok
  rw [mem_toOption_iff] at ht
  obtain ⟨hsplit, hchain⟩ := splitAt_and_chainAt_of_parse ht
  have houter := ((hchain (t.span 6)).outermost 7).mp hfound
  refine ⟨t, ht, hbefore, ((hsplit _).following 0 hbefore).symm.trans hafter, hempty, hsplit _, hspan, houter, ?_⟩
  rcases houter.above 6 hmem rfl with heq | habove
  · cases heq
  · exact habove

end Scheme

end StructuralEditor
