import StructuralEditor.Proofs.Scheme.Attachment
import StructuralEditor.Proofs.Tree.Descent

/-!
# Cursors in comments

A cursor goes down from the first root that it touches, with its text or its comments, to the first child that it
touches, and so on. A comment may be above that way: with the root around a datum that became no node.

* `Parsed.reaches_of_touches`, `Parsed.root_touched_cases` : which nodes a cursor in a comment touches;
* `Parsed.containing?_eq_keeper`, `Parsed.containing?_eq_spanning?` : the node that it finds, if the comment belongs to
  a datum that became a node, and if not;
* `Tree.Finds`, `cursorFinds_of_parse` : so it is in a parsed tree; `cursor_misses_keeper`,
  `cursor_misses_node_in_body` : where a cursor does not always find the node that has the comment.
-/

namespace StructuralEditor

open Scheme

/-! ## Nodes that span a cursor -/

namespace Tree

variable {t : Tree} {p : Position} {id : Nat} {node : Node}

def spanning? (t : Tree) (p : Position) : Option Nat := t.nodes.reverse.find? fun id => (t.span id).contains p

def OfDatum (t : Tree) (items : List Item) (id : Nat) : Prop :=
  t.span id ∈ Item.spans items ∧ t.lowered? (t.span id) = some id

theorem touches_iff (h : t.node? id = some node) :
    t.touches p id = true ↔ (t.span id).contains p = true ∨ ∃ c, node.comment = some c ∧ c.span.contains p = true := by
  rw [touches, h, span_of_node? h]
  simp [Node.touches, Option.any_eq_true]

end Tree

namespace Tree.Nested

variable {t : Tree} {S : Span → Prop} {rs : List Remark} (h : t.Nested S rs) {p : Position} {id n : Nat}

include h

theorem touches_of_contains (hid : id ∈ t.nodes) (hcontains : (t.span id).contains p = true) :
    t.touches p id = true := by
  obtain ⟨node, hnode⟩ := h.built.exists_node? hid
  exact (touches_iff hnode).mpr (.inl hcontains)

/-- The nodes above a touched node are touched, if its parent spans the position. -/
theorem touches_of_above (hn : t.touches p n = true)
    (habove : ∀ above ∈ t.nodes, n ∈ t.children above → (t.span above).contains p = true) :
    ∀ id ∈ t.nodes, n ∈ t.descendants id → t.touches p id = true := by
  have hspans : ∀ id ∈ t.nodes, n ∈ t.descendants id → id = n ∨ (t.span id).contains p = true := by
    refine h.built.below_induction fun id hid ih hbelow => ?_
    rcases (h.built.mem_descendants_iff hid).mp hbelow with heq | ⟨child, hchild, hbelow⟩
    · exact .inl heq.symm
    · rcases ih child hchild hbelow with rfl | hcontains
      · exact .inr (habove id hid hchild)
      · exact .inr ((h.covers_child hid hchild).contains hcontains)
  intro id hid hbelow
  rcases hspans id hid hbelow with rfl | hcontains
  · exact hn
  · exact h.touches_of_contains hid hcontains

/-- A node that spans a position is the innermost one if no child of it is touched. -/
theorem spanning?_eq (hid : id ∈ t.nodes) (hcontains : (t.span id).contains p = true)
    (hlast : ∀ child ∈ t.children id, t.touches p child ≠ true) (hstop : (t.span id).stop ≠ p) :
    t.spanning? p = some id := by
  have hpairwise := List.pairwise_reverse.mpr (h.pairwise_nodes.and (h.built.nodup_nodes h.unshared))
  refine find?_eq_some_of_first hpairwise (List.mem_reverse.mpr hid) hcontains fun other _ hlater hcontains' => ?_
  obtain ⟨hbelow | hapart, hne⟩ := hlater
  · rcases (h.built.mem_descendants_iff hid).mp hbelow with heq | ⟨child, hchild, hbelow⟩
    · exact hne heq.symm
    · have hmem := h.built.child_mem hid hchild
      exact hlast child hchild (h.touches_of_contains hmem ((h.covers child hmem other hbelow).contains hcontains'))
  · obtain ⟨-, hge, -⟩ := Span.contains_iff.mp hcontains
    obtain ⟨hle, -, -⟩ := Span.contains_iff.mp hcontains'
    exact hstop (le_antisymm (hapart.trans hle) hge)

end Tree.Nested

namespace Scheme

open Item CommentPlan

namespace Parsed

variable {tokens : List Token} {items : List Item} {t : Tree} {id n : Nat} {node : Node} {c d : Comment} {o : Span}
  {p : Position} (h : Parsed tokens items t)

include h

theorem not_root_of_child {child : Nat} (hid : id ∈ t.nodes) (hchild : child ∈ t.children id) : child ∉ t.roots := by
  intro hroot
  have hbuilt := h.nested.built
  obtain ⟨root, hroot', hbelow⟩ := hbuilt.exists_root hid
  have hmem := hbuilt.child_mem hid hchild
  have hle := (hbuilt.descendants_subset root (hbuilt.root_mem hroot') id hbelow).2
  have hlt := hbuilt.ordered id child hchild
  have hself := hbuilt.self_mem_descendants hmem
  rcases pairwise_cases h.rising hroot hroot' with rfl | hyounger | hyounger
  · omega
  · have hchild' := hbuilt.descendants_trans root (hbuilt.root_mem hroot') id hbelow
      ((hbuilt.mem_descendants_iff hid).mpr (.inr ⟨child, hchild, hself⟩))
    exact absurd (hyounger child hchild') (lt_irrefl child)
  · have := hyounger child hself
    omega

/-! ## What a cursor touches -/

theorem not_bounds_of_comment (hc : c ∈ Token.comments tokens) (hstart : c.span.start < p) (hstop : p < c.span.stop) :
    ¬ Token.Bounds tokens p := by
  obtain ⟨token, hmem, hcomment⟩ := List.mem_filterMap.mp hc
  have hspan : token.span = c.span := by
    obtain ⟨lexeme, span⟩ := token
    cases lexeme with
    | comment text =>
      cases hcomment
      rfl
    | opening _ | closing _ | string _ | atom _ => cases hcomment
  rw [← hspan] at hstart hstop
  exact Token.not_bounds_of_inside h.apart h.proper hmem hstart hstop

theorem node_bounds : ∀ id ∈ t.nodes, Token.Bounds tokens (t.span id).start ∧ Token.Bounds tokens (t.span id).stop := by
  obtain ⟨a, b, harranged⟩ := h.arranged
  refine h.nested.forall_ends fun s hs => ?_
  have hproper := forall_nodeSpans_proper harranged s hs
  exact ⟨hproper.1, hproper.2.1⟩

/-- What a cursor touches, it is in; or it is between comments that the node keeps. -/
theorem touches_cases (hid : id ∈ t.nodes) (htouch : t.touches p id = true) :
    (t.span id).contains p = true ∨ ∃ d ∈ t.kept (remarks none items) id, ∃ e ∈ t.kept (remarks none items) id,
      d.span.start ≤ p ∧ p ≤ e.span.stop := by
  obtain ⟨node, hnode⟩ := h.nested.built.exists_node? hid
  rcases (Tree.touches_iff hnode).mp htouch with hspan | ⟨comment, hcomment, hspan⟩
  · exact .inl hspan
  · obtain ⟨cs, hperm, hjoin⟩ := h.comment_perm hnode
    obtain ⟨⟨d, hd, hstart⟩, e, he, hstop⟩ := ends_of_joinAll (hjoin.symm.trans hcomment)
    obtain ⟨hle, hge, -⟩ := Span.contains_iff.mp hspan
    exact .inr ⟨d, hperm.mem_iff.mp hd, e, hperm.mem_iff.mp he, hstart ▸ hle, hstop ▸ hge⟩

theorem touches_of_kept (hid : id ∈ t.nodes) (hc : c ∈ t.kept (remarks none items) id) (hstart : c.span.start < p)
    (hstop : p < c.span.stop) : t.touches p id = true := by
  obtain ⟨node, comment, hnode, hcomment, hcovers, -⟩ := h.exists_comment_of_kept hid hc
  have hcontains : c.span.contains p = true :=
    Span.contains_iff.mpr ⟨hstart.le, hstop.le, (hstart.trans hstop).ne⟩
  exact (Tree.touches_iff hnode).mpr (.inr ⟨comment, hcomment, hcovers.contains hcontains⟩)

theorem belongs_of_kept (hroot : id ∉ t.roots) (hd : d ∈ t.kept (remarks none items) id) :
    t.span id ∈ spans items ∧ Belongs (remarks none items) (t.span id).start d := by
  obtain ⟨o, hmem, hkeeper⟩ := Tree.mem_kept_iff.mp hd
  rcases Tree.cases_of_keeper? hkeeper with ⟨hroot', -⟩ | ⟨-, hlowered | ⟨-, haround⟩⟩
  · exact absurd hroot' hroot
  · obtain ⟨-, rfl⟩ := Tree.mem_and_span_of_lowered? hlowered
    exact ⟨h.owner_mem hmem, _, hmem, rfl⟩
  · exact absurd (Tree.mem_and_covers_of_around? haround).1 hroot

theorem reaches_of_touches (hid : id ∈ t.nodes) (hroot : id ∉ t.roots) (htouch : t.touches p id = true) :
    (t.span id).start < (t.span id).stop ∧ Reaches (remarks none items) (t.span id) p := by
  rcases h.touches_cases hid htouch with hspan | ⟨d, hd, e, he, hle, hge⟩
  · obtain ⟨hle, hge, hne⟩ := Span.contains_iff.mp hspan
    exact ⟨lt_of_le_of_ne (hle.trans hge) hne, .inl hle, .inl hge⟩
  · have hd := (h.belongs_of_kept hroot hd).2
    exact ⟨h.nested.filled_of_belongs hid hd, .inr ⟨d, hd, hle⟩, .inr ⟨e, (h.belongs_of_kept hroot he).2, hge⟩⟩

/-- Of the children of a node, a cursor within a token touches only one. -/
theorem find?_children (hp : ¬ Token.Bounds tokens p) (hid : id ∈ t.nodes) {child : Nat}
    (hchild : child ∈ t.children id) (htouch : t.touches p child = true) :
    (t.children id).find? (t.touches p) = some child := by
  refine find?_eq_some_of_first (h.nested.apart id hid) hchild htouch fun other hother hapart htouch' => ?_
  have hmem := h.nested.built.child_mem hid hother
  obtain ⟨hlt, hreaches⟩ := h.reaches_of_touches hmem (h.not_root_of_child hid hother) htouch'
  obtain ⟨hlt', hreaches'⟩ := h.reaches_of_touches (h.nested.built.child_mem hid hchild)
    (h.not_root_of_child hid hchild) htouch
  refine hapart.not_reaches hlt hlt' (fun heq => hp ?_) (fun c hc heq => hp ?_) hreaches hreaches'
  · rw [← heq]
    exact (h.node_bounds other hmem).2
  · obtain ⟨o, hc, -⟩ := hc
    rw [← heq]
    exact (h.comment_bounds hc).2.1

/-! ## Roots -/

theorem stop_le_of_belongs {e : Datum} (he : e ∈ data items) (hd : Belongs (remarks none items) e.span.start d) :
    d.span.stop ≤ e.span.stop := by
  obtain ⟨a, b, harranged⟩ := h.arranged
  obtain ⟨o, hmem, hstart⟩ := hd
  obtain rfl := harranged.span_eq_of_start_eq (h.owner_mem hmem) (span_mem_spans he) hstart
  rcases harranged.beside hmem (span_mem_spans he) with hbefore | ⟨-, hstop, -⟩ | ⟨-, hlast⟩
  · exact hbefore.trans (h.start_lt_stop (span_mem_spans he)).le
  · exact hstop.le
  · exact absurd rfl (hlast rfl e he)

/-- A comment is in the top-level datum that its owner is in, if it does not belong to it. -/
theorem inside_of_mem_spans {e : Datum} (he : e ∈ data items) (ho : o ∈ e.spans)
    (hmem : ⟨c, some o⟩ ∈ remarks none items) :
    o = e.span ∨ e.span.start < c.span.start ∧ c.span.stop < e.span.stop := by
  obtain ⟨a, b, harranged⟩ := h.arranged
  have hlaid := (laidRow_data harranged).laid e he
  have hlt := (h.comment_bounds hmem).2.2
  have hreaches : ∀ q, c.span.start ≤ q → q ≤ c.span.stop → Reaches (remarks none items) o q := fun q hle hge =>
    ⟨.inr ⟨c, ⟨o, hmem, rfl⟩, hle⟩, .inr ⟨c, ⟨o, hmem, rfl⟩, hge⟩⟩
  rcases hlaid.inside_of_reaches ho (hreaches _ le_rfl hlt.le) with heq | hstart
  · exact .inl heq
  · rcases hlaid.inside_of_reaches ho (hreaches _ hlt.le le_rfl) with heq | hstop
    · exact .inl heq
    · exact .inr ⟨hstart.1, hstop.2⟩

theorem eq_of_reaches (hp : ¬ Token.Bounds tokens p) {e f : Datum} (he : e ∈ data items) (hf : f ∈ data items)
    (hpe : Reaches (remarks none items) e.span p) (hpf : Reaches (remarks none items) f.span p) : e = f := by
  obtain ⟨a, b, harranged⟩ := h.arranged
  have hstop : ∀ d ∈ data items, d.span.stop ≠ p := fun d hd heq =>
    hp (heq ▸ (harranged.spans_between _ (span_mem_spans hd)).1.2.1)
  rcases pairwise_cases (laidRow_data harranged).apart he hf with heq | hef | hfe
  · exact heq
  · exact absurd hpf (hef.not_reaches (hstop e he) hpe)
  · exact absurd hpe (hfe.not_reaches (hstop f hf) hpf)

/-- A root that reaches a position within a comment is the datum that the comment is in. -/
theorem span_eq_of_reaches (hp : ¬ Token.Bounds tokens p) {e : Datum} (he : e ∈ data items)
    (hpe : Reaches (remarks none items) e.span p) {root : Nat} (hroot : root ∈ t.roots)
    (hreaches : Reaches (remarks none items) (t.span root) p) : t.span root = e.span := by
  obtain ⟨a, b, harranged⟩ := h.arranged
  rcases h.root_cases hroot with ⟨f, hf, hspan⟩ | ⟨comment, hcomment, hspan⟩
  · rw [← hspan] at hreaches ⊢
    rw [h.eq_of_reaches hp he hf hpe hreaches]
  · -- The comments at the end are behind all data, and no comment belongs there.
    have hstop := stop_le_trailing harranged hcomment he
    have hle : p ≤ e.span.stop := by
      rcases hpe.2 with hle | ⟨d, hd, hle⟩
      · exact hle
      · exact hle.trans (h.stop_le_of_belongs he hd)
    rw [hspan] at hstop
    rcases hreaches.1 with hge | ⟨d, ⟨o, hmem, hstart⟩, -⟩
    · refine absurd ?_ hp
      rw [le_antisymm hle (hstop.trans hge)]
      exact (harranged.spans_between _ (span_mem_spans he)).1.2.1
    · obtain ⟨f, hf, -, hcovers⟩ := exists_datum_of_mem_spans harranged (h.owner_mem hmem)
      have hbehind := stop_le_trailing harranged hcomment hf
      have hlt := h.start_lt_stop (h.owner_mem hmem)
      rw [hspan, ← hstart] at hbehind
      exact absurd (hcovers.2.trans hbehind) (not_le.mpr hlt)

/-- A root that covers what a top-level datum covers is this datum. -/
theorem span_eq_of_covers (ho : o ∈ spans items) {e : Datum} (he : e ∈ data items) (hcovers : e.span.Covers o)
    {root : Nat} (hroot : root ∈ t.roots) (hcovers' : (t.span root).Covers o) : t.span root = e.span := by
  have hlt := h.start_lt_stop ho
  obtain ⟨root', hroot', hspan⟩ := h.exists_root_of_datum he
  rw [← hspan] at hcovers ⊢
  rw [h.nested.eq_of_roots_around hroot hroot' ⟨hcovers'.1, hlt.trans_le hcovers'.2⟩
    ⟨hcovers.1, hlt.trans_le hcovers.2⟩]

theorem kept_root_cases {root : Nat} (hroot : root ∈ t.roots) (hd : d ∈ t.kept (remarks none items) root) :
    Belongs (remarks none items) (t.span root).start d ∨
    ((t.span root).start < d.span.start ∧ d.span.stop < (t.span root).stop) ∨
    ∃ o, ⟨d, some o⟩ ∈ remarks none items ∧ (t.span root).stop = o.start := by
  obtain ⟨a, b, harranged⟩ := h.arranged
  obtain ⟨o, hmem, hkeeper⟩ := Tree.mem_kept_iff.mp hd
  have ho := h.owner_mem hmem
  rcases Tree.cases_of_keeper? hkeeper with ⟨-, hstop⟩ | ⟨-, hhome⟩
  · exact .inr (.inr ⟨o, hmem, hstop⟩)
  have hcovers : (t.span root).Covers o := by
    rcases hhome with hlowered | ⟨-, haround⟩
    · rw [(Tree.mem_and_span_of_lowered? hlowered).2]
      exact ⟨le_rfl, le_rfl⟩
    · exact (Tree.mem_and_covers_of_around? haround).2
  obtain ⟨e, he, hoe, hcovers'⟩ := exists_datum_of_mem_spans harranged ho
  have hspan := h.span_eq_of_covers ho he hcovers' hroot hcovers
  rcases h.inside_of_mem_spans he hoe hmem with rfl | hinside
  · exact .inl ⟨_, hmem, by rw [hspan]⟩
  · exact .inr (.inl (hspan ▸ hinside))

/-- A root that a cursor in a comment touches is the datum that the comment is in; or else the comment is displaced. -/
theorem root_touched_cases (hmem : ⟨c, some o⟩ ∈ remarks none items) (hp : ¬ Token.Bounds tokens p)
    (hstart : c.span.start < p) (hstop : p < c.span.stop) {e : Datum} (he : e ∈ data items) (ho : o ∈ e.spans)
    (hcovers : e.span.Covers o) {root : Nat} (hroot : root ∈ t.roots) (htouch : t.touches p root = true) :
    t.span root = e.span ∨ (t.span root).stop = e.span.start ∧ o = e.span := by
  have hreaches : Reaches (remarks none items) e.span p := by
    rcases h.inside_of_mem_spans he ho hmem with rfl | ⟨hlow, hhigh⟩
    · exact ⟨.inr ⟨c, ⟨_, hmem, rfl⟩, hstart.le⟩, .inr ⟨c, ⟨_, hmem, rfl⟩, hstop.le⟩⟩
    · exact ⟨.inl (hlow.trans hstart).le, .inl (hstop.trans hhigh).le⟩
  rcases h.touches_cases (h.nested.built.root_mem hroot) htouch with hspan | ⟨d, hd, d', hd', hle, hge⟩
  · obtain ⟨hle, hge, -⟩ := Span.contains_iff.mp hspan
    exact .inl (h.span_eq_of_reaches hp he hreaches hroot ⟨.inl hle, .inl hge⟩)
  · have hlow : (t.span root).start ≤ p ∨
        ∃ d, Belongs (remarks none items) (t.span root).start d ∧ d.span.start ≤ p := by
      rcases h.kept_root_cases hroot hd with hbelongs | ⟨hlow, -⟩ | ⟨o', hmem', hstop'⟩
      · exact .inr ⟨d, hbelongs, hle⟩
      · exact .inl (hlow.le.trans hle)
      · have := (h.displaced hmem' hroot hstop').1.1
        have := (h.root_proper hroot).2.2
        exact .inl (by order)
    by_cases hhigh : p ≤ (t.span root).stop
    · exact .inl (h.span_eq_of_reaches hp he hreaches hroot ⟨hlow, .inl hhigh⟩)
    · rcases h.kept_root_cases hroot hd' with hbelongs | ⟨-, hhigh'⟩ | ⟨o', hmem', hstop'⟩
      · exact .inl (h.span_eq_of_reaches hp he hreaches hroot ⟨hlow, .inr ⟨d', hbelongs, hge⟩⟩)
      · exact absurd (hge.trans hhigh'.le) hhigh
      · -- The cursor is in the list that follows, and there is no datum in it.
        obtain ⟨f, hf, rfl, -⟩ := h.exists_precedes_of_stop (h.owner_mem hmem') hroot hstop'
        obtain ⟨hinside, -⟩ := h.displaced hmem' hroot hstop'
        have hlt := (h.comment_bounds hmem').2.2
        rw [not_le, hstop'] at hhigh
        obtain rfl := h.eq_of_reaches hp he hf hreaches ⟨.inl hhigh.le, .inl (hge.trans hinside.2.le)⟩
        refine .inr ⟨hstop', ?_⟩
        rcases h.dataless_of_inside hmem' hinside.1 (hlt.trans hinside.2) o (List.mem_append_left _ (h.owner_mem hmem))
          with heq | hbefore | hbehind
        · exact heq
        · exact absurd hbefore (not_lt.mpr hcovers.1)
        · exact absurd ((h.start_lt_stop (h.owner_mem hmem)).trans_le hcovers.2) (not_lt.mpr hbehind)

/-! ## Cursors -/

theorem mem_of_keeper? (hmem : ⟨c, some o⟩ ∈ remarks none items) (hkeeper : t.keeper? o = some n) : n ∈ t.nodes := by
  obtain ⟨n', hn', hkeeper', -⟩ := h.receives_keeper hmem
  rw [hkeeper, Option.some_inj] at hkeeper'
  exact hkeeper' ▸ hn'

theorem le_stop_of_reaches {root : Nat} (hroot : root ∈ t.roots) (hid : id ∈ t.descendants root)
    (hlt : (t.span id).start < (t.span id).stop) (hreaches : Reaches (remarks none items) (t.span id) p) :
    p ≤ (t.span root).stop := by
  obtain ⟨a, b, harranged⟩ := h.arranged
  have hcovers := h.nested.covers root (h.nested.built.root_mem hroot) id hid
  rcases hreaches.2 with hle | ⟨d, ⟨o, hmem, hstart⟩, hle⟩
  · exact hle.trans hcovers.2
  · have ho := h.owner_mem hmem
    obtain ⟨e, he, hoe, hcovers'⟩ := exists_datum_of_mem_spans harranged ho
    obtain ⟨root', hroot', hspan⟩ := h.exists_root_of_datum he
    have hstop := h.start_lt_stop ho
    have heq := h.nested.eq_of_roots_around hroot hroot' (k := o.start)
      ⟨hstart ▸ hcovers.1, hstart ▸ hlt.trans_le hcovers.2⟩
      (hspan ▸ ⟨hcovers'.1, hstop.trans_le hcovers'.2⟩)
    rw [heq, hspan]
    rcases h.inside_of_mem_spans he hoe hmem with rfl | ⟨-, hhigh⟩
    · exact hle.trans (h.stop_le_of_belongs he ⟨_, hmem, rfl⟩)
    · exact hle.trans hhigh.le

/-- A cursor in a comment touches no child of the node that keeps it, if the owner of the comment is a node. -/
theorem not_touches_child (hmem : ⟨c, some o⟩ ∈ remarks none items) (hstart : c.span.start < p)
    (hstop : p < c.span.stop) (hkeeper : t.keeper? o = some n) (hlowered : t.lowered? o ≠ none) :
    ∀ child ∈ t.children n, t.touches p child ≠ true := by
  obtain ⟨a, b, harranged⟩ := h.arranged
  have ho := h.owner_mem hmem
  have hn := h.mem_of_keeper? hmem hkeeper
  intro child hchild htouch
  have hbuilt := h.nested.built
  have hchild' := hbuilt.child_mem hn hchild
  obtain ⟨hlt, hreaches⟩ := h.reaches_of_touches hchild' (h.not_root_of_child hn hchild) htouch
  rcases Tree.cases_of_keeper? hkeeper with ⟨hroot, hend⟩ | ⟨-, hn | ⟨hnone, -⟩⟩
  · have hbelow := (hbuilt.mem_descendants_iff hn).mpr (.inr ⟨child, hchild, hbuilt.self_mem_descendants hchild'⟩)
    have hle := h.le_stop_of_reaches hroot hbelow hlt hreaches
    have hinside := (h.displaced hmem hroot hend).1.1
    order
  · obtain ⟨hlow, hhigh⟩ := (h.nested.encloses_of_lowered? hn
      (fun s hs hstart => h.eq_of_start_eq ho hs hstart) child hchild).reaches hreaches
    rcases harranged.beside hmem ho with hbefore | ⟨hlow', hhigh', -⟩ | ⟨hbehind, -⟩
    · order
    · have hnone := h.dataless_of_inside hmem hlow' ((h.comment_bounds hmem).2.2.trans hhigh')
      rw [h.nested.children_eq_nil_of_lowered? hn (h.start_lt_stop ho) hnone] at hchild
      cases hchild
    · order
  · exact hlowered hnone

theorem contains_of_ofDatum (hmem : ⟨c, some o⟩ ∈ remarks none items) (hstart : c.span.start < p)
    (hstop : p < c.span.stop) (hkeeper : t.keeper? o = some n) (hid : id ∈ t.nodes) (hchild : n ∈ t.children id)
    (hdatum : t.OfDatum items id) : (t.span id).contains p = true := by
  have hroot := h.not_root_of_child hid hchild
  have hbelongs := (h.belongs_of_kept hroot (Tree.mem_kept_iff.mpr ⟨o, hmem, hkeeper⟩)).2
  obtain ⟨hlow, hhigh⟩ := (h.nested.encloses_of_lowered? hdatum.2
    (fun s hs hstart => h.eq_of_start_eq hdatum.1 hs hstart) n hchild).comments c hbelongs
  exact Span.contains_iff.mpr ⟨by order, by order, (h.start_lt_stop hdatum.1).ne⟩

/-- The first root that a cursor in a comment touches is the one around the keeper, if the owner of the comment is a
node. -/
theorem find?_roots_keeper (hmem : ⟨c, some o⟩ ∈ remarks none items) (hp : ¬ Token.Bounds tokens p)
    (hstart : c.span.start < p) (hstop : p < c.span.stop) (hkeeper : t.keeper? o = some n)
    (hlowered : t.lowered? o ≠ none) {root : Nat} (hroot : root ∈ t.roots) (hbelow : n ∈ t.descendants root)
    (htouch : t.touches p root = true) : t.roots.find? (t.touches p) = some root := by
  obtain ⟨a, b, harranged⟩ := h.arranged
  have ho := h.owner_mem hmem
  have hlt := h.start_lt_stop ho
  obtain ⟨e, he, hoe, hcovers⟩ := exists_datum_of_mem_spans harranged ho
  have hlow := (h.nested.covers root (h.nested.built.root_mem hroot) n hbelow).1
  have hhigh := hcovers.2
  refine find?_eq_some_of_first h.nested.roots hroot htouch fun other hother hapart htouch' => ?_
  have hcases := h.root_touched_cases hmem hp hstart hstop he hoe hcovers hother htouch'
  rcases Tree.cases_of_keeper? hkeeper with ⟨hroot', hend⟩ | ⟨hfree, hn | ⟨hnone, -⟩⟩
  · have hproper := (h.root_proper hroot').2.2
    rcases hcases with hspan | ⟨hend', rfl⟩
    · rw [hspan] at hapart
      order
    · order
  · rw [(Tree.mem_and_span_of_lowered? hn).2] at hlow
    rcases hcases with hspan | ⟨hend', rfl⟩
    · rw [hspan] at hapart
      order
    · exact hfree other hother hend'
  · exact hlowered hnone

/-- A cursor in a comment finds the node that keeps it, if the owner of the comment is a node and the parent of the
keeper is the node of a datum or spans the cursor. -/
theorem containing?_eq_keeper (hmem : ⟨c, some o⟩ ∈ remarks none items) (hp : ¬ Token.Bounds tokens p)
    (hstart : c.span.start < p) (hstop : p < c.span.stop) (hkeeper : t.keeper? o = some n)
    (hlowered : t.lowered? o ≠ none)
    (hparent : ∀ above ∈ t.nodes, n ∈ t.children above → t.OfDatum items above ∨ (t.span above).contains p = true) :
    t.containing? p = some n := by
  have hbuilt := h.nested.built
  have hn := h.mem_of_keeper? hmem hkeeper
  have hself := h.touches_of_kept hn (Tree.mem_kept_iff.mpr ⟨o, hmem, hkeeper⟩) hstart hstop
  have htouch := h.nested.touches_of_above hself fun above habove hchild =>
    (hparent above habove hchild).elim (h.contains_of_ofDatum hmem hstart hstop hkeeper habove hchild) id
  obtain ⟨root, hroot, hbelow⟩ := hbuilt.exists_root hn
  have hroot' := hbuilt.root_mem hroot
  have hinner : t.innermost p root = n := by
    refine hbuilt.innermost_eq (fun id hid child hchild hbelow => ?_)
      (h.not_touches_child hmem hstart hstop hkeeper hlowered) root hroot' hbelow
    exact h.find?_children hp hid hchild (htouch child (hbuilt.child_mem hid hchild) hbelow)
  have hfind := h.find?_roots_keeper hmem hp hstart hstop hkeeper hlowered hroot hbelow (htouch root hroot' hbelow)
  rw [Tree.containing?, hfind, Option.map_some, hinner]

/-- Below the roots, a cursor in a comment touches only what spans it, if the owner of the comment is no node. -/
theorem contains_of_touches (hmem : ⟨c, some o⟩ ∈ remarks none items) (hp : ¬ Token.Bounds tokens p)
    (hstart : c.span.start < p) (hstop : p < c.span.stop) (hlowered : t.lowered? o = none) (hid : id ∈ t.nodes)
    (hroot : id ∉ t.roots) (htouch : t.touches p id = true) : (t.span id).contains p = true := by
  obtain ⟨a, b, harranged⟩ := h.arranged
  have ho := h.owner_mem hmem
  rcases h.touches_cases hid htouch with hspan | ⟨d, hd, -⟩
  · exact hspan
  obtain ⟨hspans, -⟩ := h.belongs_of_kept hroot hd
  obtain ⟨hlt, hreaches⟩ := h.reaches_of_touches hid hroot htouch
  have hreaches' : Reaches (remarks none items) o p :=
    ⟨.inr ⟨c, ⟨o, hmem, rfl⟩, hstart.le⟩, .inr ⟨c, ⟨o, hmem, rfl⟩, hstop.le⟩⟩
  have hne : t.span id ≠ o := Tree.lowered?_eq_none_iff.mp hlowered id hid
  have htangled : ∀ s ∈ spans items, ∀ s' ∈ spans items, Reaches (remarks none items) s p →
      Reaches (remarks none items) s' p → Tangled p s s' := by
    have hrow := laidRow_data harranged
    have hends : ∀ s, s ∈ nodeSpans items → s.stop ≠ p := fun s hs heq =>
      hp (heq ▸ (forall_nodeSpans_proper harranged s hs).2.1)
    exact hrow.tangled_of hends fun d hd =>
      (hrow.laid d hd).tangled (fun s hs => (forall_nodeSpans_proper harranged s hs).2.2) hends
  rcases htangled o ho _ hspans hreaches' hreaches with heq | ⟨hlow, hhigh⟩ | ⟨hlow, hhigh⟩
  · exact absurd heq.symm hne
  · exact Span.contains_iff.mpr ⟨hlow.le, hhigh.le, (hlow.trans hhigh).ne⟩
  · -- The node would be in the owner of the comment, and so would be the comment, beside other data.
    rcases htangled _ hspans o ho hreaches hreaches' with heq | ⟨hlow', hhigh'⟩ | ⟨hlow', -⟩
    · exact absurd heq hne
    · rcases harranged.beside hmem ho with hbefore | ⟨-, -, hnone⟩ | ⟨hbehind, -⟩
      · order
      · rcases hnone _ hspans with hle | hle <;> order
      · order
    · order

/-- A cursor in a comment finds the innermost node that spans it, if the owner of the comment is no node. -/
theorem containing?_eq_spanning? (hmem : ⟨c, some o⟩ ∈ remarks none items) (hp : ¬ Token.Bounds tokens p)
    (hstart : c.span.start < p) (hstop : p < c.span.stop) (hlowered : t.lowered? o = none) :
    ∃ m, t.containing? p = some m ∧ t.spanning? p = some m := by
  obtain ⟨a, b, harranged⟩ := h.arranged
  have ho := h.owner_mem hmem
  have hbuilt := h.nested.built
  obtain ⟨e, he, hoe, hcovers⟩ := exists_datum_of_mem_spans harranged ho
  obtain ⟨root, hroot, hspan⟩ := h.exists_root_of_datum he
  have hne : o ≠ e.span := fun heq =>
    Tree.lowered?_eq_none_iff.mp hlowered root (hbuilt.root_mem hroot) (hspan.trans heq.symm)
  have hroot' := hbuilt.root_mem hroot
  have hcontains : (t.span root).contains p = true := by
    rcases h.inside_of_mem_spans he hoe hmem with heq | ⟨hlow, hhigh⟩
    · exact absurd heq hne
    · rw [hspan]
      exact Span.contains_iff.mpr ⟨by order, by order, (h.start_lt_stop (span_mem_spans he)).ne⟩
  have hfind : t.roots.find? (t.touches p) = some root := by
    refine find?_eq_some_of_first h.nested.roots hroot (h.nested.touches_of_contains hroot' hcontains)
      fun other hother hapart htouch => ?_
    have hproper := (h.root_proper hroot).2.2
    rcases h.root_touched_cases hmem hp hstart hstop he hoe hcovers hother htouch with hspan' | ⟨-, heq⟩
    · rw [hspan', ← hspan] at hapart
      order
    · exact hne heq
  refine ⟨t.innermost p root, by rw [Tree.containing?, hfind, Option.map_some], ?_⟩
  obtain ⟨hbelow, htouched, hlast⟩ := hbuilt.innermost_spec (p := p) root hroot'
  have hinner : (t.span (t.innermost p root)).contains p = true := by
    rcases htouched with heq | ⟨⟨above, habove, hchild⟩, htouch⟩
    · rw [heq]
      exact hcontains
    · exact h.contains_of_touches hmem hp hstart hstop hlowered (hbuilt.child_mem habove hchild)
        (h.not_root_of_child habove hchild) htouch
  have hmem' := (hbuilt.descendants_subset root hroot' _ hbelow).1
  exact h.nested.spanning?_eq hmem' hinner hlast fun heq => hp (heq ▸ (h.node_bounds _ hmem').2)

end Parsed

end Scheme

def Tree.Has (t : Tree) (id : Nat) (c : Comment) : Prop :=
  ∃ node comment, t.node? id = some node ∧ node.comment = some comment ∧ comment.span.Covers c.span ∧
    c.text ∈ comment.lines

/-- What a cursor finds in a comment that belongs to the datum at `o` and that the node `n` has: the node, if the datum
became one and the parent of `n` stands for a datum or spans the cursor; and if the datum became no node, the innermost
node that spans the cursor. -/
structure Tree.Finds (t : Tree) (items : List Item) (o : Span) (n : Nat) (p : Position) : Prop where
  keeper : t.lowered? o ≠ none →
    (∀ above ∈ t.nodes, n ∈ t.children above → t.OfDatum items above ∨ (t.span above).contains p = true) →
    t.containing? p = some n
  spanning : t.lowered? o = none → ∃ m, t.containing? p = some m ∧ t.spanning? p = some m

namespace Scheme

open Item CommentPlan

theorem Parsed.has_of_keeper? {source : String} {tokens : List Token} {items : List Item} {t : Tree}
    (h : Parsed tokens items t) (htokens : Token.tokenize source = .ok tokens)
    (hcomments : (remarks none items).map Remark.comment = Token.comments tokens) {c : Comment} {o : Span}
    (hmem : ⟨c, some o⟩ ∈ remarks none items) {n : Nat} (hkeeper : t.keeper? o = some n) : t.Has n c := by
  have hline : c.lines = [c.text] := lines_of_mem_comments htokens (hcomments ▸ List.mem_map_of_mem hmem)
  obtain ⟨node, comment, hnode, hcomment, hcovers, hlines⟩ := h.exists_comment_of_kept (h.mem_of_keeper? hmem hkeeper)
    (Tree.mem_kept_iff.mpr ⟨o, hmem, hkeeper⟩)
  refine ⟨node, comment, hnode, hcomment, hcovers, hlines ?_⟩
  rw [hline]
  exact List.mem_singleton_self _

/-- What a cursor finds in the comments of a text. -/
theorem cursorFinds_of_parse {depth serial : Nat} {source : String} {t : Tree} (h : parse depth serial source = .ok t) :
    ∃ tokens items, Token.tokenize source = .ok tokens ∧ Item.read tokens = .ok items ∧
      (remarks none items).map Remark.comment = Token.comments tokens ∧
      ∀ c o, ⟨c, some o⟩ ∈ remarks none items → ∃ n, t.keeper? o = some n ∧ t.Has n c ∧
        ∀ p, c.span.start < p → p < c.span.stop → t.Finds items o n p := by
  obtain ⟨tokens, items, htokens, hitems, hparsed⟩ := parsed_of_parse h
  have hcomments := comments_of_nested (read_eq_ok_iff.mp hitems) none
  refine ⟨tokens, items, htokens, hitems, hcomments, fun c o hmem => ?_⟩
  obtain ⟨n, hn, hkeeper, -⟩ := hparsed.receives_keeper hmem
  refine ⟨n, hkeeper, hparsed.has_of_keeper? htokens hcomments hmem hkeeper, fun p hstart hstop => ?_⟩
  have hp := hparsed.not_bounds_of_comment (hcomments ▸ List.mem_map_of_mem hmem) hstart hstop
  exact ⟨hparsed.containing?_eq_keeper hmem hp hstart hstop hkeeper,
    hparsed.containing?_eq_spanning? hmem hp hstart hstop⟩

theorem cursorFinds_of_parse_application : ∃ t, parse 1 0 "(f ;c\n x)" = .ok t ∧ t.containing? ⟨0, 4⟩ = some 1 ∧
    (t.node? 1).bind (·.comment) = some ⟨⟨⟨0, 3⟩, ⟨0, 5⟩⟩, ";c"⟩ ∧
    ∃ tokens items, Token.tokenize "(f ;c\n x)" = .ok tokens ∧ Item.read tokens = .ok items ∧
      (remarks none items).map Remark.comment = Token.comments tokens ∧
      ∀ c o, ⟨c, some o⟩ ∈ remarks none items → ∃ n, t.keeper? o = some n ∧ t.Has n c ∧
        ∀ p, c.span.start < p → p < c.span.stop → t.Finds items o n p := by
  have hok : ∃ t ∈ (parse 1 0 "(f ;c\n x)").toOption, t.containing? ⟨0, 4⟩ = some 1 ∧
      (t.node? 1).bind (·.comment) = some ⟨⟨⟨0, 3⟩, ⟨0, 5⟩⟩, ";c"⟩ := by decide +kernel
  obtain ⟨t, ht, hfound, hcomment⟩ := hok
  rw [mem_toOption_iff] at ht
  exact ⟨t, ht, hfound, hcomment, cursorFinds_of_parse ht⟩

/-- A cursor in a comment before a keyword does not find the root that has the comment. -/
theorem cursor_misses_keeper : ∃ t tokens c n, parse 1 0 "(x (;c\nbegin y))" = .ok t ∧
    Token.tokenize "(x (;c\nbegin y))" = .ok tokens ∧ c ∈ Token.comments tokens ∧
    (t.node? n).bind (·.comment) = some c ∧ c.span.start < ⟨0, 5⟩ ∧ ⟨0, 5⟩ < c.span.stop ∧
    t.containing? ⟨0, 5⟩ ≠ some n := by
  have hok : ∃ t ∈ (parse 1 0 "(x (;c\nbegin y))").toOption,
      ∃ tokens ∈ (Token.tokenize "(x (;c\nbegin y))").toOption, ∃ c ∈ Token.comments tokens, ∃ n ∈ t.roots,
        (t.node? n).bind (·.comment) = some c ∧ c.span.start < ⟨0, 5⟩ ∧ ⟨0, 5⟩ < c.span.stop ∧
        t.containing? ⟨0, 5⟩ ≠ some n := by decide +kernel
  obtain ⟨t, ht, tokens, htokens, c, hc, n, -, hrest⟩ := hok
  rw [mem_toOption_iff] at ht htokens
  exact ⟨t, tokens, c, n, ht, htokens, hc, hrest⟩

/-- Nor does one in a comment before the body of a guarded form find the node that has the comment: the body is its
parent, stands for no datum and starts behind the cursor. -/
theorem cursor_misses_node_in_body : ∃ t, parse 1 0 "(when p ;c\nx)" = .ok t ∧
    (t.node? 1).bind (·.comment) = some ⟨⟨⟨0, 8⟩, ⟨0, 10⟩⟩, ";c"⟩ ∧ t.children 2 = [1] ∧
    (t.span 2).contains ⟨0, 9⟩ = false ∧ t.containing? ⟨0, 9⟩ = t.firstRoot? ∧ t.firstRoot? = some 3 := by
  have hok : ∃ t ∈ (parse 1 0 "(when p ;c\nx)").toOption,
      (t.node? 1).bind (·.comment) = some ⟨⟨⟨0, 8⟩, ⟨0, 10⟩⟩, ";c"⟩ ∧ t.children 2 = [1] ∧
        (t.span 2).contains ⟨0, 9⟩ = false ∧ t.containing? ⟨0, 9⟩ = t.firstRoot? ∧ t.firstRoot? = some 3 := by
    decide +kernel
  obtain ⟨t, ht, hrest⟩ := hok
  exact ⟨t, mem_toOption_iff.mp ht, hrest⟩

end Scheme

end StructuralEditor
