import StructuralEditor.Proofs.Span
import StructuralEditor.Proofs.Tree.Lineage

/-!
# Splitting a forest at a cursor

* `eq_append_of_sorted` : a bound splits a sorted row;
* `Tree.InOrder` : nodes start one after the other in document order, and those with the same span are below each other;
* `Tree.startingBefore`, `Tree.InOrder.before?_eq`, `Tree.atOrAfter?_eq` : the nodes before a cursor and the
  first one behind them;
* `Tree.SplitAt`, `Tree.InOrder.splitAt` : the scans from a position split nodes and roots in the same way;
* `Tree.Outermost`, `Tree.ChainAt`, `Tree.InOrder.chainAt` : the nodes with a given span, and the outermost of them.
-/

namespace StructuralEditor

/-- A bound splits a sorted row into what is below it and the rest. -/
theorem eq_append_of_sorted {α : Type} {f : α → Position} {as : List α} (h : as.Pairwise fun a b => f a ≤ f b)
    (p : Position) : as = (as.filter fun a => f a < p) ++ as.filter fun a => p ≤ f a := by
  induction h with
  | nil => rfl
  | @cons a as hfirst _ ih =>
    by_cases ha : f a < p
    · rw [List.filter_cons_of_pos (by simpa using ha), List.filter_cons_of_neg (by simpa using ha), List.cons_append,
        ← ih]
    · -- Nothing behind the first member is below the bound either.
      have hrest : ∀ b ∈ a :: as, p ≤ f b := by
        intro b hb
        rcases List.mem_cons.mp hb with rfl | hb
        · exact not_lt.mp ha
        · exact (not_lt.mp ha).trans (hfirst b hb)
      rw [List.filter_eq_nil_iff.mpr fun b hb => by simpa using hrest b hb, List.nil_append,
        List.filter_eq_self.mpr fun b hb => by simpa using hrest b hb]

theorem find?_reverse_eq_getLast? {α : Type} (p : α → Bool) (as : List α) :
    as.reverse.find? p = (as.filter p).getLast? := by
  rw [← List.head?_filter, List.filter_reverse, List.head?_reverse]

namespace Tree

variable {t u : Tree} {p q : Position} {id m n : Nat}

/-- The nodes that start before a position, in document order. -/
def startingBefore (t : Tree) (p : Position) : List Nat := t.nodes.filter fun id => (t.span id).start < p

/-- In document order no node starts before an earlier one, and of nodes with the same span each is below those before
it. -/
structure InOrder (t : Tree) : Prop where
  starts : t.nodes.Pairwise fun a b => (t.span a).start ≤ (t.span b).start
  chains : t.nodes.Pairwise fun a b => t.span a = t.span b → b ∈ t.descendants a

/-! ## Scans -/

theorem Built.head?_nodes (h : t.Built) : t.nodes.head? = t.firstRoot? := by
  rw [h.nodes_eq, firstRoot?]
  cases hroots : t.roots with
  | nil => rfl
  | cons root rest =>
    have hmem := h.root_mem (hroots ▸ List.mem_cons_self)
    rw [List.flatMap_cons, show t.table.descendants root = _ from h.descendants_eq hmem]
    rfl

theorem foldl_later_eq (best : Option Nat) {ids : List Nat}
    (h : (best.toList ++ ids).Pairwise fun a b => (t.span a).start ≤ (t.span b).start) :
    ids.foldl t.later best = ids.getLast?.or best := by
  induction ids generalizing best with
  | nil => rfl
  | cons id ids ih =>
    have hlater : t.later best id = some id := by
      cases best with
      | none => rfl
      | some b => exact if_neg (not_lt.mpr ((List.pairwise_cons.mp h).1 id List.mem_cons_self))
    rw [List.foldl_cons, hlater, ih (some id) (List.pairwise_append.mp h).2.1, List.getLast?_cons]
    cases ids.getLast? <;> rfl

theorem atOrAfter?_eq (t : Tree) (p : Position) :
    t.atOrAfter? p = (t.nodes.filter fun id => p ≤ (t.span id).start).head? := List.head?_filter.symm

namespace InOrder

variable (h : t.InOrder)

include h

theorem nodes_eq (p : Position) :
    t.nodes = t.startingBefore p ++ t.nodes.filter fun id => p ≤ (t.span id).start :=
  eq_append_of_sorted h.starts p

theorem before?_eq (p : Position) : t.before? p = (t.startingBefore p).getLast? := by
  have hfold := foldl_later_eq none (h.starts.filter fun id => (t.span id).start < p)
  rwa [Option.or_none] at hfold

theorem atOrAfter?_of_before? (hb : t.Built) (hu : t.Unshared) (hid : t.before? p = some id) :
    t.atOrAfter? p = t.next? id := by
  rw [h.before?_eq, List.getLast?_eq_some_iff] at hid
  obtain ⟨before, hbefore⟩ := hid
  have hnodes := h.nodes_eq p
  rw [hbefore, List.append_assoc, List.singleton_append] at hnodes
  rw [atOrAfter?_eq, next?, ((laidOut_of_built hb hu).neighbours before id _ hnodes).2]

theorem atOrAfter?_of_none (hb : t.Built) (hnone : t.before? p = none) : t.atOrAfter? p = t.firstRoot? := by
  rw [h.before?_eq, List.getLast?_eq_none_iff] at hnone
  have hnodes := h.nodes_eq p
  rw [hnone, List.nil_append] at hnodes
  rw [atOrAfter?_eq, ← hnodes, hb.head?_nodes]

end InOrder

/-- A cursor splits the document: what starts before it comes first and ends with the node that is found before it, and
the node that is found at or behind it follows that, or is the first root; and so it is with the roots alone. -/
structure SplitAt (t : Tree) (p : Position) : Prop where
  nodes : t.startingBefore p <+: t.nodes
  before : t.before? p = (t.startingBefore p).getLast?
  following : ∀ id, t.before? p = some id → t.atOrAfter? p = t.next? id
  first : t.before? p = none → t.atOrAfter? p = t.firstRoot?
  roots : ∃ before behind, t.roots = before ++ behind ∧ (∀ root ∈ before, (t.span root).start < p) ∧
    (∀ root ∈ behind, p ≤ (t.span root).start) ∧ t.rootBefore? p = before.getLast? ∧
    t.rootAtOrAfter? p = behind.head?

theorem InOrder.splitAt (h : t.InOrder) (hb : t.Built) (hu : t.Unshared)
    (hroots : t.roots.Pairwise fun a b => (t.span a).start ≤ (t.span b).start) (p : Position) : t.SplitAt p where
  nodes := ⟨_, (h.nodes_eq p).symm⟩
  before := h.before?_eq p
  following := fun _ => h.atOrAfter?_of_before? hb hu
  first := h.atOrAfter?_of_none hb
  roots := by
    refine ⟨_, _, eq_append_of_sorted hroots p, fun root hroot => ?_, fun root hroot => ?_,
      find?_reverse_eq_getLast? _ _, List.head?_filter.symm⟩
    · simpa using List.of_mem_filter hroot
    · simpa using List.of_mem_filter hroot

/-! ## Nodes with the same span -/

/-- The node has the given span, and every other node that has it is below. -/
structure Outermost (t : Tree) (s : Span) (n : Nat) : Prop where
  mem : n ∈ t.nodes
  span : t.span n = s
  above : ∀ m ∈ t.nodes, t.span m = s → m = n ∨ t.isAncestor n m = true

/-- The nodes with the given span are below each other, and the outermost one is found, if there are any. -/
structure ChainAt (t : Tree) (s : Span) : Prop where
  chain : ∀ m ∈ t.nodes, ∀ n ∈ t.nodes, t.span m = s → t.span n = s →
    m = n ∨ t.isAncestor m n = true ∨ t.isAncestor n m = true
  outermost : ∀ n, t.exactly? s.start s.stop = some n ↔ t.Outermost s n
  missing : t.exactly? s.start s.stop = none ↔ ∀ n ∈ t.nodes, t.span n ≠ s

theorem exactly?_eq_none_iff {s : Span} : t.exactly? s.start s.stop = none ↔ ∀ n ∈ t.nodes, t.span n ≠ s := by
  rw [exactly?, List.find?_eq_none]
  simp only [decide_eq_true_eq]

section Chain

variable (hb : t.Built) (hu : t.Unshared)

include hb hu

theorem Outermost.eq {s : Span} (hm : t.Outermost s m) (hn : t.Outermost s n) : m = n := by
  rcases hm.above n hn.mem hn.span with heq | hbelow
  · exact heq.symm
  · rcases hn.above m hm.mem hm.span with heq | habove
    · exact heq
    · -- Neither of two nodes is above the other if each is.
      have hlt := ((isAncestor_iff_above hb hu hm.mem hn.mem).mp hbelow).lt hb
      have hlt' := ((isAncestor_iff_above hb hu hn.mem hm.mem).mp habove).lt hb
      omega

namespace InOrder

variable (h : t.InOrder)

include h

/-- Of nodes with the same span, one before the other in document order is above it. -/
theorem chains_isAncestor : t.nodes.Pairwise fun a b => t.span a = t.span b → t.isAncestor a b = true := by
  refine (h.chains.and (hb.nodup_nodes hu)).imp_of_mem fun {a b} ha hb' hab heq => ?_
  exact (isAncestor_iff_above hb hu ha hb').mpr ⟨ha, hab.2, hab.1 heq⟩

theorem outermost_of_exactly? {s : Span} (hn : t.exactly? s.start s.stop = some n) : t.Outermost s n := by
  obtain ⟨hspan, before, behind, hnodes, hbefore⟩ := List.find?_eq_some_iff_append.mp hn
  have hspan : t.span n = s := of_decide_eq_true hspan
  have hchains := h.chains_isAncestor hb hu
  rw [hnodes] at hchains
  refine ⟨by rw [hnodes]; simp, hspan, fun m hm heq => ?_⟩
  rw [hnodes] at hm
  rcases List.mem_append.mp hm with hm | hm
  · have hnot := hbefore m hm
    simp [heq] at hnot
  · rcases List.mem_cons.mp hm with rfl | hm
    · exact .inl rfl
    · exact .inr ((List.pairwise_cons.mp (List.pairwise_append.mp hchains).2.1).1 m hm (hspan.trans heq.symm))

theorem chainAt (s : Span) : t.ChainAt s where
  chain := by
    intro m hm n hn hspan hspan'
    have heq : t.span m = t.span n := hspan.trans hspan'.symm
    rcases pairwise_cases (h.chains_isAncestor hb hu) hm hn with hsame | habove | habove
    · exact .inl hsame
    · exact .inr (.inl (habove heq))
    · exact .inr (.inr (habove heq.symm))
  outermost := by
    intro n
    refine ⟨h.outermost_of_exactly? hb hu, fun hn => ?_⟩
    cases hfound : t.exactly? s.start s.stop with
    | none => exact absurd hn.span (exactly?_eq_none_iff.mp hfound n hn.mem)
    | some m => rw [(h.outermost_of_exactly? hb hu hfound).eq hb hu hn]
  missing := exactly?_eq_none_iff

end InOrder

end Chain

end Tree

end StructuralEditor
