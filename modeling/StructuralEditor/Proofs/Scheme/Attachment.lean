import StructuralEditor.Proofs.Scheme.ParsedSpans

/-!
# Where comments are attached

* `Tree.home?` : where the comments of a datum belong, its node or else the root around it;
* `Tree.keeper?` : where they are, which is elsewhere if a root ends where the datum starts;
* `Parsed.receives_keeper` : the node that takes the comments of a datum;
* `Parsed.comment_perm` : every node has the comments that it keeps, as one;
* `Parsed.displaced` : comments are elsewhere than where they belong only if they are in a list without data;
* `attached_of_parse`, `comment_not_at_home` : so it is in a parsed tree, where not all comments are at home;
* `commentLines_perm_of_parse` : no comment of a text is lost, and none is there twice.
-/

namespace StructuralEditor

theorem flatMap_filter_perm {α κ : Type} [DecidableEq κ] (key : α → κ) {items : List α} {keys : List κ}
    (h : keys.Nodup) {p : α → Bool} (hp : ∀ a ∈ items, p a = true ↔ key a ∈ keys) :
    (keys.flatMap fun k => items.filter (key · = k)).Perm (items.filter p) := by
  induction h generalizing p with
  | nil =>
    have hnone : items.filter p = [] := List.filter_eq_nil_iff.mpr fun a ha => by simp [hp a ha]
    rw [hnone, List.flatMap_nil]
  | @cons k keys hk _ ih =>
    have hnotin : k ∉ keys := fun hmem => hk k hmem rfl
    have hfirst : items.filter (key · = k) = items.filter fun a => decide (key a = k) && p a :=
      List.filter_congr fun a ha => by by_cases hkey : key a = k <;> simp [hp a ha, hkey]
    have hrest := ih (p := fun a => !decide (key a = k) && p a) fun a ha => by
      by_cases hkey : key a = k <;> simp [hp a ha, hkey, hnotin]
    rw [List.flatMap_cons, hfirst]
    refine (hrest.append_left _).trans ?_
    rw [← List.filter_filter, ← List.filter_filter]
    exact List.filter_append_perm _ _

/-! ## Homes and keepers -/

instance (s t : Span) : Decidable (s.Covers t) := inferInstanceAs (Decidable (_ ∧ _))

namespace Tree

def lowered? (t : Tree) (o : Span) : Option Nat := t.nodes.reverse.find? fun id => t.span id = o

def around? (t : Tree) (o : Span) : Option Nat := t.roots.find? fun root => (t.span root).Covers o

/-- Where the comments of a datum belong: to its node, or to the root around it if it has none. -/
def home? (t : Tree) (o : Span) : Option Nat := (t.lowered? o).or (t.around? o)

/-- Where the comments of a datum are: with a root that ends where the datum starts, if there is one. -/
def keeper? (t : Tree) (o : Span) : Option Nat :=
  (t.roots.find? fun root => (t.span root).stop = o.start).or (t.home? o)

end Tree

open Scheme

namespace Tree

def kept (t : Tree) (rs : List Remark) (id : Nat) : List Comment :=
  (rs.filter fun r => r.owner.bind t.keeper? = some id).map Remark.comment

variable {t : Tree} {S : Span → Prop} {rs : List Remark} {id x n : Nat} {o : Span} {c : Comment}

theorem lowered?_eq_none_iff : t.lowered? o = none ↔ ∀ id ∈ t.nodes, t.span id ≠ o := by
  simp [lowered?]

theorem mem_kept_iff : c ∈ t.kept rs id ↔ ∃ o, ⟨c, some o⟩ ∈ rs ∧ t.keeper? o = some id := by
  simp only [kept, List.mem_map, List.mem_filter, decide_eq_true_eq, Option.bind_eq_some_iff]
  constructor
  · rintro ⟨⟨c, _⟩, ⟨hmem, o, rfl, hkeeper⟩, rfl⟩
    exact ⟨o, hmem, hkeeper⟩
  · rintro ⟨o, hmem, hkeeper⟩
    exact ⟨⟨c, some o⟩, ⟨hmem, o, rfl, hkeeper⟩, rfl⟩

theorem mem_and_span_of_lowered? (h : t.lowered? o = some n) : n ∈ t.nodes ∧ t.span n = o :=
  ⟨List.mem_reverse.mp (List.mem_of_find?_eq_some h), by simpa using List.find?_some h⟩

/-- Comments are kept by a root that ends where their datum starts, or where they belong if there is none. -/
theorem keeper?_cases (t : Tree) (o : Span) :
    (∃ root ∈ t.roots, t.keeper? o = some root ∧ (t.span root).stop = o.start) ∨
    (∀ root ∈ t.roots, (t.span root).stop ≠ o.start) ∧ t.keeper? o = t.home? o := by
  rw [keeper?]
  cases hnext : t.roots.find? fun root => (t.span root).stop = o.start with
  | some root =>
    have hstop : (t.span root).stop = o.start := by simpa using List.find?_some hnext
    exact .inl ⟨root, List.mem_of_find?_eq_some hnext, rfl, hstop⟩
  | none =>
    refine .inr ⟨?_, rfl⟩
    simpa using hnext

/-- A node that keeps the comments of a datum is a root that ends where the datum starts, or the node of the datum, or
the root around a datum that has none. -/
theorem cases_of_keeper? (h : t.keeper? o = some n) : (n ∈ t.roots ∧ (t.span n).stop = o.start) ∨
    (∀ root ∈ t.roots, (t.span root).stop ≠ o.start) ∧
      (t.lowered? o = some n ∨ t.lowered? o = none ∧ t.around? o = some n) := by
  rcases t.keeper?_cases o with ⟨root, hroot, hkeeper, hstop⟩ | ⟨hfree, hhome⟩
  · rw [h, Option.some_inj] at hkeeper
    exact .inl ⟨hkeeper ▸ hroot, hkeeper ▸ hstop⟩
  · rw [hhome, home?, Option.or_eq_some_iff] at h
    exact .inr ⟨hfree, h⟩

theorem mem_and_covers_of_around? (h : t.around? o = some n) : n ∈ t.roots ∧ (t.span n).Covers o :=
  ⟨List.mem_of_find?_eq_some h, by simpa using List.find?_some h⟩

/-! ## Nodes of data -/

namespace Nested

variable (h : t.Nested S rs)

include h

/-- What takes the same stretch is above the innermost node that does. -/
theorem mem_descendants_of_lowered? (hlt : o.start < o.stop) (hn : t.lowered? o = some n) (hx : x ∈ t.nodes)
    (hspan : t.span x = o) : n ∈ t.descendants x := by
  obtain ⟨hmem, hspan'⟩ := mem_and_span_of_lowered? hn
  obtain ⟨-, later, earlier, hnodes, hlater⟩ := List.find?_eq_some_iff_append.mp hn
  have hnodes' : t.nodes = earlier.reverse ++ n :: later.reverse := by
    rw [← List.reverse_reverse t.nodes, hnodes]
    simp
  have hpairwise := h.pairwise_nodes
  rw [hnodes'] at hx hpairwise
  rcases List.mem_append.mp hx with hx | hx
  · rcases (List.pairwise_append.mp hpairwise).2.2 x hx n List.mem_cons_self with hbelow | hapart
    · exact hbelow
    · rw [hspan, hspan'] at hapart
      exact absurd hlt (not_lt.mpr hapart)
  · rcases List.mem_cons.mp hx with rfl | hx
    · exact h.built.self_mem_descendants hmem
    · have := hlater x (List.mem_reverse.mp hx)
      simp [hspan] at this

theorem filled_of_belongs (hid : id ∈ t.nodes) (hc : Belongs rs (t.span id).start c) :
    (t.span id).start < (t.span id).stop := by
  rcases h.filled_or_vacant hid with hlt | ⟨s, free, hspan, -⟩
  · exact hlt
  · rw [hspan] at hc
    exact absurd hc (free c)

/-- Where a node starts that is not empty, the node of a datum starts that is not above it. -/
theorem exists_datum_below : ∀ id ∈ t.nodes, (t.span id).start < (t.span id).stop →
    ∃ x ∈ t.descendants id, S (t.span x) ∧ (t.span x).start = (t.span id).start := by
  refine h.built.below_induction fun id hid ih hlt => ?_
  cases h.laid id hid with
  | plain here _ _ => exact ⟨id, h.built.self_mem_descendants hid, here, rfl⟩
  | gathered first _ hchildren hstart _ _ filled =>
    have hfirst : first ∈ t.children id := hchildren ▸ List.mem_cons_self
    obtain ⟨x, hx, hS, hxstart⟩ := ih first hfirst (filled first hfirst)
    exact ⟨x, (h.built.mem_descendants_iff hid).mpr (.inr ⟨first, hfirst, hx⟩), hS, hxstart.trans hstart⟩
  | vacant _ _ _ hspan _ _ _ _ =>
    rw [hspan] at hlt
    exact absurd hlt (lt_irrefl _)

theorem encloses_of_lowered? (hn : t.lowered? o = some n) (hunique : ∀ s, S s → s.start = o.start → s = o) :
    ∀ child ∈ t.children n, Encloses rs o (t.span child) := by
  obtain ⟨hid, rfl⟩ := mem_and_span_of_lowered? hn
  cases h.laid n hid with
  | plain _ inside _ => exact inside
  | gathered first _ hchildren hstart _ _ filled =>
    have hfirst : first ∈ t.children n := hchildren ▸ List.mem_cons_self
    have hmem := h.built.child_mem hid hfirst
    obtain ⟨x, hx, hS, hxstart⟩ := h.exists_datum_below first hmem (filled first hfirst)
    have hspan := hunique _ hS (hxstart.trans hstart)
    have hx' := h.built.descendants_subset first hmem x hx
    have hbelow := h.mem_descendants_of_lowered? (hspan ▸ h.proper _ hS) hn hx'.1 hspan
    have := (h.built.descendants_subset x hx'.1 n hbelow).2
    have := h.built.ordered n first hfirst
    omega
  | vacant _ _ _ _ _ _ hnode hkind =>
    intro child hchild
    rw [children_of_node? hnode, hkind] at hchild
    cases hchild

theorem children_eq_nil_of_lowered? (hn : t.lowered? o = some n) (hlt : o.start < o.stop)
    (hnone : ∀ s, S s → s = o ∨ s.start < o.start ∨ o.stop ≤ s.start) : t.children n = [] := by
  have hencloses := h.encloses_of_lowered? hn fun s hs hstart => by
    rcases hnone s hs with heq | hbefore | hbehind
    · exact heq
    · exact absurd hbefore (not_lt.mpr hstart.ge)
    · exact absurd hlt (not_lt.mpr (hstart ▸ hbehind))
  obtain ⟨hid, rfl⟩ := mem_and_span_of_lowered? hn
  have hchild : ∀ child ∈ t.children n, (t.span child).start < (t.span child).stop → False := by
    intro child hchild hlt
    obtain ⟨x, -, hS, hstart⟩ := h.exists_datum_below child (h.built.child_mem hid hchild) hlt
    have hlow := (hencloses child hchild).start
    rw [← hstart] at hlow hlt
    rcases hnone _ hS with heq | hbefore | hbehind
    · exact absurd hlow (heq ▸ lt_irrefl _)
    · exact absurd hbefore (not_lt.mpr hlow.le)
    · exact absurd (hlt.trans (hencloses child hchild).stop) (not_lt.mpr hbehind)
  cases h.laid n hid with
  | plain _ _ filled =>
    rcases filled with filled | ⟨node, name, parameters, body, hnode, hkind, hname, -⟩
    · exact List.eq_nil_iff_forall_not_mem.mpr fun child hmem => hchild child hmem (filled child hmem)
    · have hmem : name ∈ t.children n := by
        simp [children_of_node? hnode, hkind, Kind.children, Kind.fields, Field.nodes]
      exact (hchild name hmem hname).elim
  | gathered first _ hchildren _ _ _ filled =>
    have hfirst : first ∈ t.children n := hchildren ▸ List.mem_cons_self
    exact (hchild first hfirst (filled first hfirst)).elim
  | vacant _ _ _ _ _ _ hnode hkind =>
    rw [children_of_node? hnode, hkind]
    rfl

theorem eq_of_roots_around {root root' : Nat} (hroot : root ∈ t.roots) (hroot' : root' ∈ t.roots) {k : Position}
    (hk : (t.span root).start ≤ k ∧ k < (t.span root).stop) (hk' : (t.span root').start ≤ k ∧ k < (t.span root').stop) :
    root = root' := by
  rcases pairwise_cases h.roots hroot hroot' with heq | hapart | hapart
  · exact heq
  · exact absurd (hk.2.trans_le (hapart.trans hk'.1)) (lt_irrefl k)
  · exact absurd (hk'.2.trans_le (hapart.trans hk.1)) (lt_irrefl k)

end Nested

end Tree

namespace Scheme

open Item CommentPlan

namespace Parsed

variable {tokens : List Token} {items : List Item} {t : Tree} {id n : Nat} {node : Node} {c : Comment} {o : Span}
  (h : Parsed tokens items t)

include h

theorem owner_mem (hmem : ⟨c, some o⟩ ∈ remarks none items) : o ∈ spans items := by
  obtain ⟨a, b, harranged⟩ := h.arranged
  rcases harranged.owner_cases hmem with ho | ⟨-, hnone⟩
  · exact ho
  · cases hnone

theorem start_lt_stop (ho : o ∈ spans items) : o.start < o.stop := by
  obtain ⟨a, b, harranged⟩ := h.arranged
  exact (harranged.spans_between o ho).1.2.2

theorem comment_bounds (hmem : ⟨c, some o⟩ ∈ remarks none items) : c.span.Proper (Token.Bounds tokens) := by
  obtain ⟨a, b, harranged⟩ := h.arranged
  exact (harranged.remarks_between none _ hmem).1

theorem exists_root_of_datum {d : Datum} (hd : d ∈ data items) : ∃ root ∈ t.roots, t.span root = d.span := by
  have hmem : d.span ∈ t.roots.map t.span := by
    rw [h.roots]
    exact List.mem_append_left _ (List.mem_map_of_mem hd)
  exact List.mem_map.mp hmem

theorem exists_root_around (ho : o ∈ spans items) : ∃ root ∈ t.roots, (t.span root).Covers o := by
  obtain ⟨a, b, harranged⟩ := h.arranged
  obtain ⟨d, hd, -, hcovers⟩ := exists_datum_of_mem_spans harranged ho
  obtain ⟨root, hroot, heq⟩ := h.exists_root_of_datum hd
  exact ⟨root, hroot, heq ▸ hcovers⟩

theorem eq_of_start_eq (ho : o ∈ spans items) {s : Span} (hs : s ∈ nodeSpans items) (hstart : s.start = o.start) :
    s = o := by
  obtain ⟨a, b, harranged⟩ := h.arranged
  rcases List.mem_append.mp hs with hs | hs
  · exact harranged.span_eq_of_start_eq hs ho hstart
  · obtain ⟨c, hc, rfl⟩ := List.mem_map.mp hs
    obtain ⟨d, hd, -, hcovers⟩ := exists_datum_of_mem_spans harranged ho
    have hstop := stop_le_trailing harranged (Option.mem_toList.mp hc) hd
    have hlt := h.start_lt_stop ho
    rw [hstart] at hstop
    exact absurd (hcovers.2.trans hstop) (not_le.mpr hlt)

/-! ## Who takes the comments -/

/-- What starts where a datum with comments does has the node of the datum in it. -/
theorem exists_lowered (hmem : ⟨c, some o⟩ ∈ remarks none items) (hid : id ∈ t.nodes)
    (hstart : (t.span id).start = o.start) : ∃ n, t.lowered? o = some n ∧ n ≤ id := by
  have ho := h.owner_mem hmem
  obtain ⟨x, hx, hS, hxstart⟩ := h.nested.exists_datum_below id hid
    (h.nested.filled_of_belongs hid ⟨o, hmem, hstart.symm⟩)
  have hspan := h.eq_of_start_eq ho hS (hxstart.trans hstart)
  obtain ⟨hxmem, hle⟩ := h.nested.built.descendants_subset id hid x hx
  cases hn : t.lowered? o with
  | none => exact absurd hspan (Tree.lowered?_eq_none_iff.mp hn x hxmem)
  | some n =>
    have hbelow := h.nested.mem_descendants_of_lowered? (h.start_lt_stop ho) hn hxmem hspan
    exact ⟨n, rfl, (h.nested.built.descendants_subset x hxmem n hbelow).2.trans hle⟩

theorem claims_iff {k : Position} : t.table.Claims t.roots id k ↔ id ∈ t.nodes ∧
    ((t.span id).start = k ∨ id ∈ t.roots ∧ (t.span id).start ≤ k ∧ k ≤ (t.span id).stop) := by
  constructor
  · rintro ⟨node, hnode, hclaim⟩
    rw [Tree.span_of_node? hnode]
    exact ⟨h.whole id (Array.getElem?_eq_some_iff.mp hnode).1, hclaim⟩
  · rintro ⟨hid, hclaim⟩
    obtain ⟨node, hnode⟩ := h.nested.built.exists_node? hid
    rw [Tree.span_of_node? hnode] at hclaim
    exact ⟨node, hnode, hclaim⟩

theorem receives_of_stop (hmem : ⟨c, some o⟩ ∈ remarks none items) {root : Nat} (hroot : root ∈ t.roots)
    (hstop : (t.span root).stop = o.start) : t.table.Receives t.roots root o.start := by
  have hproper := (h.root_proper hroot).2.2
  refine ⟨h.claims_iff.mpr ⟨h.nested.built.root_mem hroot, .inr ⟨hroot, ?_, hstop.ge⟩⟩, fun other hother hclaims => ?_⟩
  · rw [← hstop]
    exact hproper.le
  obtain ⟨hid, hclaim⟩ := h.claims_iff.mp hclaims
  have hrows := h.nested.roots.and h.rising
  have hstart : (t.span other).start = o.start := by
    rcases hclaim with hstart | ⟨hother', hle, hge⟩
    · exact hstart
    · rcases pairwise_cases hrows hother' hroot with rfl | ⟨hapart, -⟩ | ⟨hapart, -⟩
      · exact absurd hother (lt_irrefl _)
      · exact absurd (hge.trans hapart) (not_le.mpr (hstop ▸ hproper))
      · exact le_antisymm hle (hstop ▸ hapart)
  obtain ⟨root', hroot', hbelow⟩ := h.nested.built.exists_root hid
  have hcovers := h.nested.covers root' (h.nested.built.root_mem hroot') other hbelow
  rcases pairwise_cases hrows hroot' hroot with rfl | ⟨hapart, -⟩ | ⟨-, hyounger⟩
  · -- The datum would be in the root that ends where it starts.
    obtain ⟨x, hx, hS, hxstart⟩ := h.nested.exists_datum_below other hid
      (h.nested.filled_of_belongs hid ⟨o, hmem, hstart.symm⟩)
    have hspan := h.eq_of_start_eq (h.owner_mem hmem) hS (hxstart.trans hstart)
    have hcovers' := hcovers.trans (h.nested.covers other hid x hx)
    rw [hspan] at hcovers'
    exact absurd (h.start_lt_stop (h.owner_mem hmem)) (not_lt.mpr (hstop ▸ hcovers'.2))
  · have := h.nested.start_le_stop hid
    have := hcovers.2
    order
  · exact absurd (hyounger other hbelow) (Nat.not_lt.mpr hother.le)

theorem receives_of_lowered? (hmem : ⟨c, some o⟩ ∈ remarks none items)
    (hfree : ∀ root ∈ t.roots, (t.span root).stop ≠ o.start) (hn : t.lowered? o = some n) :
    t.table.Receives t.roots n o.start := by
  have hlt := h.start_lt_stop (h.owner_mem hmem)
  obtain ⟨hid, hspan⟩ := Tree.mem_and_span_of_lowered? hn
  refine ⟨h.claims_iff.mpr ⟨hid, .inl (by rw [hspan])⟩, fun other hother hclaims => ?_⟩
  obtain ⟨hid', hstart | ⟨hroot, hle, hge⟩⟩ := h.claims_iff.mp hclaims
  · obtain ⟨n', hn', hle⟩ := h.exists_lowered hmem hid' hstart
    rw [hn, Option.some_inj] at hn'
    omega
  · obtain ⟨root, hroot', hbelow⟩ := h.nested.built.exists_root hid
    have hcovers := h.nested.covers root (h.nested.built.root_mem hroot') n hbelow
    rw [hspan] at hcovers
    have heq := h.nested.eq_of_roots_around hroot hroot' ⟨hle, lt_of_le_of_ne hge (hfree other hroot).symm⟩
      ⟨hcovers.1, hlt.trans_le hcovers.2⟩
    have := (h.nested.built.descendants_subset root (h.nested.built.root_mem hroot') n hbelow).2
    omega

theorem receives_of_around? (hmem : ⟨c, some o⟩ ∈ remarks none items)
    (hfree : ∀ root ∈ t.roots, (t.span root).stop ≠ o.start) (hnone : t.lowered? o = none)
    (hn : t.around? o = some n) : t.table.Receives t.roots n o.start := by
  have hlt := h.start_lt_stop (h.owner_mem hmem)
  obtain ⟨hroot, hcovers⟩ := Tree.mem_and_covers_of_around? hn
  have hstop : o.start < (t.span n).stop := hlt.trans_le hcovers.2
  refine ⟨h.claims_iff.mpr ⟨h.nested.built.root_mem hroot, .inr ⟨hroot, hcovers.1, hstop.le⟩⟩,
    fun other hother hclaims => ?_⟩
  obtain ⟨hid', hstart | ⟨hroot', hle, hge⟩⟩ := h.claims_iff.mp hclaims
  · obtain ⟨n', hn', -⟩ := h.exists_lowered hmem hid' hstart
    rw [hnone] at hn'
    cases hn'
  · have heq := h.nested.eq_of_roots_around hroot' hroot ⟨hle, lt_of_le_of_ne hge (hfree other hroot').symm⟩
      ⟨hcovers.1, hstop⟩
    omega

/-- The keeper of the comments of a datum is the node that takes them. -/
theorem receives_keeper (hmem : ⟨c, some o⟩ ∈ remarks none items) :
    ∃ n ∈ t.nodes, t.keeper? o = some n ∧ t.table.Receives t.roots n o.start := by
  have hreceives : ∃ n, t.keeper? o = some n ∧ t.table.Receives t.roots n o.start := by
    rcases t.keeper?_cases o with ⟨root, hroot, hkeeper, hstop⟩ | ⟨hfree, hkeeper⟩
    · exact ⟨root, hkeeper, h.receives_of_stop hmem hroot hstop⟩
    · rw [hkeeper, Tree.home?]
      cases hlowered : t.lowered? o with
      | some n => exact ⟨n, rfl, h.receives_of_lowered? hmem hfree hlowered⟩
      | none =>
        obtain ⟨root, hroot, hcovers⟩ := h.exists_root_around (h.owner_mem hmem)
        cases haround : t.around? o with
        | some n => exact ⟨n, rfl, h.receives_of_around? hmem hfree hlowered haround⟩
        | none =>
          rw [Tree.around?, List.find?_eq_none] at haround
          exact absurd (decide_eq_true hcovers) (haround root hroot)
  obtain ⟨n, hkeeper, hreceives⟩ := hreceives
  exact ⟨n, (h.claims_iff.mp hreceives.1).1, hkeeper, hreceives⟩

theorem receives_iff (hmem : ⟨c, some o⟩ ∈ remarks none items) :
    t.table.Receives t.roots id o.start ↔ t.keeper? o = some id := by
  obtain ⟨n, -, hkeeper, hreceives⟩ := h.receives_keeper hmem
  rw [hkeeper, Option.some_inj]
  exact ⟨fun hid => hreceives.eq hid, fun heq => heq ▸ hreceives⟩

/-! ## Displaced comments -/

theorem root_cases {root : Nat} (hroot : root ∈ t.roots) : (∃ d ∈ data items, d.span = t.span root) ∨
    ∃ c, (ofItems items).2 = some c ∧ c.span = t.span root := by
  have hmem : t.span root ∈ t.roots.map t.span := List.mem_map_of_mem hroot
  rw [h.roots] at hmem
  rcases List.mem_append.mp hmem with hmem | hmem
  · exact .inl (List.mem_map.mp hmem)
  · obtain ⟨c, hc, heq⟩ := List.mem_map.mp hmem
    exact .inr ⟨c, Option.mem_toList.mp hc, heq⟩

theorem dataless_of_inside (hmem : ⟨c, some o⟩ ∈ remarks none items) (hstart : o.start < c.span.start)
    (hstop : c.span.start < o.stop) : ∀ s ∈ nodeSpans items, s = o ∨ s.start < o.start ∨ o.stop ≤ s.start := by
  obtain ⟨a, b, harranged⟩ := h.arranged
  have ho := h.owner_mem hmem
  have hlt := (h.comment_bounds hmem).2.2
  intro s hs
  rcases List.mem_append.mp hs with hs' | hs'
  · rcases harranged.beside hmem ho with hbefore | ⟨-, -, hnone⟩ | ⟨hbehind, -⟩
    · exact absurd (hlt.trans_le hbefore) (not_lt.mpr hstart.le)
    · rcases hnone s hs' with hle | hle
      · rcases hle.eq_or_lt with heq | hlt
        · exact .inl (h.eq_of_start_eq ho hs heq)
        · exact .inr (.inl hlt)
      · exact .inr (.inr hle)
    · exact absurd hstop (not_lt.mpr hbehind)
  · obtain ⟨c, hc, rfl⟩ := List.mem_map.mp hs'
    obtain ⟨d, hd, -, hcovers⟩ := exists_datum_of_mem_spans harranged ho
    exact .inr (.inr (hcovers.2.trans (stop_le_trailing harranged (Option.mem_toList.mp hc) hd)))

theorem exists_precedes_of_stop (ho : o ∈ spans items) {root : Nat} (hroot : root ∈ t.roots)
    (hstop : (t.span root).stop = o.start) :
    ∃ d ∈ data items, d.span = o ∧ Precedes (remarks none items) (t.span root) o := by
  obtain ⟨a, b, harranged⟩ := h.arranged
  have hlt := h.start_lt_stop ho
  have hproper := (h.root_proper hroot).2.2
  obtain ⟨e, he, -, hcovers⟩ := exists_datum_of_mem_spans harranged ho
  rcases h.root_cases hroot with ⟨d, hd, hspan⟩ | ⟨c, hc, hspan⟩
  · rw [← hspan] at hstop hproper ⊢
    rcases pairwise_cases (laidRow_data harranged).apart hd he with rfl | hde | hed
    · exact absurd hlt (not_lt.mpr (hstop ▸ hcovers.2))
    · have heq : e.span = o := by
        refine harranged.span_eq_of_start_eq (span_mem_spans he) ho (le_antisymm hcovers.1 ?_)
        rw [← hstop]
        exact hde.apart
      exact ⟨e, he, heq, heq ▸ hde⟩
    · have := hed.apart
      have := hcovers.2
      order
  · have hle := stop_le_trailing harranged hc he
    have hle' := hcovers.2
    rw [hspan] at hle
    order

/-- A root takes the comments of a datum behind it only out of a list without data, right behind it. -/
theorem displaced (hmem : ⟨c, some o⟩ ∈ remarks none items) {root : Nat} (hroot : root ∈ t.roots)
    (hstop : (t.span root).stop = o.start) : (o.start < c.span.start ∧ c.span.stop < o.stop) ∧
      ∃ list ∈ t.roots, t.span list = o ∧ ∃ n, t.lowered? o = some n ∧ t.children n = [] := by
  obtain ⟨a, b, harranged⟩ := h.arranged
  have ho := h.owner_mem hmem
  obtain ⟨d, hd, rfl, hprecedes⟩ := h.exists_precedes_of_stop ho hroot hstop
  have hlt := (h.comment_bounds hmem).2.2
  have hle := hprecedes.second c ⟨_, hmem, rfl⟩
  have hinside : d.span.start < c.span.start ∧ c.span.stop < d.span.stop := by
    rcases harranged.beside hmem ho with hbefore | ⟨hstart, hstop, -⟩ | ⟨-, hlast⟩
    · exact absurd (hlt.trans_le hbefore) (not_lt.mpr (hstop ▸ hle))
    · exact ⟨hstart, hstop⟩
    · exact absurd rfl (hlast rfl d hd)
  obtain ⟨list, hlist, heq⟩ := h.exists_root_of_datum hd
  refine ⟨hinside, list, hlist, heq, ?_⟩
  cases hn : t.lowered? d.span with
  | none => exact absurd heq (Tree.lowered?_eq_none_iff.mp hn list (h.nested.built.root_mem hlist))
  | some n =>
    have hnone := h.dataless_of_inside hmem hinside.1 (hlt.trans hinside.2)
    exact ⟨n, rfl, h.nested.children_eq_nil_of_lowered? hn (h.start_lt_stop ho) hnone⟩

/-! ## Kept comments -/

theorem comment_perm (hnode : t.node? id = some node) :
    ∃ cs, cs.Perm (t.kept (remarks none items) id) ∧ node.comment = joinAll cs := by
  obtain ⟨ks, hks, hmem, hjoin⟩ := h.comment_eq hnode
  refine ⟨_, ?_, hjoin⟩
  have hnodup : (ks.map some).Nodup := hks.map fun _ _ => Option.some.inj
  have hkeys : ∀ r ∈ remarks none items,
      decide (r.owner.bind t.keeper? = some id) = true ↔ r.owner.map Span.start ∈ ks.map some := by
    rintro ⟨c, _ | o⟩ hr
    · simp
    · have hstart : (some o).map Span.start ∈ ks.map some ↔ o.start ∈ ks := by simp
      rw [hstart, hmem, h.receives_iff hr, decide_eq_true_iff, Option.bind_some]
      exact (and_iff_right ⟨c, o, hr, rfl⟩).symm
  have hperm := (flatMap_filter_perm _ hnodup hkeys).map Remark.comment
  rwa [List.flatMap_map, List.map_flatMap] at hperm

theorem exists_comment_of_kept (hid : id ∈ t.nodes) (hc : c ∈ t.kept (remarks none items) id) :
    ∃ node comment, t.node? id = some node ∧ node.comment = some comment ∧ comment.span.Covers c.span ∧
      c.lines ⊆ comment.lines := by
  obtain ⟨node, hnode⟩ := h.nested.built.exists_node? hid
  obtain ⟨cs, hperm, hjoin⟩ := h.comment_perm hnode
  have hmem := hperm.mem_iff.mpr hc
  cases hcomment : joinAll cs with
  | none =>
    rw [joinAll_eq_none_iff.mp hcomment] at hmem
    cases hmem
  | some comment =>
    refine ⟨node, comment, hnode, hjoin.trans hcomment, covers_of_joinAll hcomment c hmem, fun line hline => ?_⟩
    rw [lines_of_joinAll hcomment]
    exact List.mem_flatMap.mpr ⟨c, hmem, hline⟩

/-- Every comment that belongs to a datum is kept by one node, once. -/
theorem kept_perm : (t.nodes.flatMap (t.kept (remarks none items))).Perm
    (((remarks none items).filter fun r => r.owner.isSome).map Remark.comment) := by
  have hnodup : (t.nodes.map some).Nodup :=
    (h.nested.built.nodup_nodes h.nested.unshared).map fun _ _ => Option.some.inj
  have hkeys : ∀ r ∈ remarks none items, r.owner.isSome = true ↔ r.owner.bind t.keeper? ∈ t.nodes.map some := by
    rintro ⟨c, _ | o⟩ hr
    · simp
    · obtain ⟨n, hn, hkeeper, -⟩ := h.receives_keeper hr
      simp [hkeeper, hn]
  have hperm := (flatMap_filter_perm _ hnodup hkeys).map Remark.comment
  rwa [List.flatMap_map, List.map_flatMap] at hperm

end Parsed

/-! ## Comments of a text -/

def Token.comment? : Token → Option Comment
  | ⟨.comment text, span⟩ => some ⟨span, text⟩
  | _ => none

def Token.comments (tokens : List Token) : List Comment := tokens.filterMap Token.comment?

theorem comments_of_nested {n : Nat} {tokens : List Token} {items : List Item} (h : Item.Nested n tokens items)
    (behind : Option Span) : (remarks behind items).map Remark.comment = Token.comments tokens := by
  induction h generalizing behind with
  | nil => rfl
  | atom text span _ ih | string text span _ ih => exact ih _
  | comment text span _ ih =>
    rw [remarks_comment, List.map_cons, ih]
    rfl
  | @list _ inner tokens _ _ bracket opened closed _ _ ihinner ihrest =>
    have hcomments : Token.comments (⟨.opening bracket, opened⟩ :: (inner ++ ⟨.closing bracket, closed⟩ :: tokens)) =
        Token.comments inner ++ Token.comments tokens := List.filterMap_append
    rw [hcomments, remarks_list, List.map_append, ihinner, ihrest]

theorem lines_of_mem_comments {source : String} {tokens : List Token} (h : Token.tokenize source = .ok tokens)
    {c : Comment} (hc : c ∈ Token.comments tokens) : c.lines = [c.text] := by
  obtain ⟨⟨lexeme, span⟩, hmem, hc⟩ := List.mem_filterMap.mp hc
  have hvalid := Token.valid_of_scan h _ hmem
  cases lexeme with
  | comment text =>
    cases hc
    obtain ⟨body, htext, hbody, -⟩ := hvalid
    have hnotin : '\n' ∉ text.toList := by
      rw [htext, List.mem_cons, not_or]
      exact ⟨by decide, hbody⟩
    rw [Comment.lines, Text.pieces_of_notMem hnotin, List.map_singleton, String.ofList_toList]
  | opening _ | closing _ | string _ | atom _ => cases hc

end Scheme

/-! ## Attached comments -/

/-- Every node has the comments that it keeps, as one. A comment is kept where it belongs, but for that in a list
without data right behind a root, which the root keeps. The comments that belong to no datum are a root. -/
structure Tree.Attached (t : Tree) (rs : List Remark) : Prop where
  nodes : ∀ id ∈ t.nodes, ∃ node cs, t.node? id = some node ∧ cs.Perm (t.kept rs id) ∧ node.comment = joinAll cs
  kept : ∀ c o, ⟨c, some o⟩ ∈ rs → ∃ n ∈ t.nodes, t.keeper? o = some n
  home : ∀ c o, ⟨c, some o⟩ ∈ rs → t.keeper? o = t.home? o ∨ ∃ root ∈ t.roots, t.keeper? o = some root ∧
    (t.span root).stop = o.start ∧ (o.start < c.span.start ∧ c.span.stop < o.stop) ∧
    ∃ list ∈ t.roots, t.span list = o ∧ ∃ n, t.home? o = some n ∧ t.children n = []
  notes : t.notes = (joinAll (unowned rs)).toList

namespace Scheme

open Item CommentPlan

/-- Where the comments of a text are in its tree. -/
theorem attached_of_parse {depth serial : Nat} {source : String} {t : Tree} (h : parse depth serial source = .ok t) :
    ∃ tokens items, Token.tokenize source = .ok tokens ∧ Item.read tokens = .ok items ∧
      (remarks none items).map Remark.comment = Token.comments tokens ∧ t.Attached (remarks none items) := by
  obtain ⟨tokens, items, htokens, hitems, hparsed⟩ := parsed_of_parse h
  refine ⟨tokens, items, htokens, hitems, comments_of_nested (read_eq_ok_iff.mp hitems) none, ?_, ?_, ?_, ?_⟩
  · intro id hid
    obtain ⟨node, hnode⟩ := hparsed.nested.built.exists_node? hid
    obtain ⟨cs, hperm, hjoin⟩ := hparsed.comment_perm hnode
    exact ⟨node, cs, hnode, hperm, hjoin⟩
  · intro c o hmem
    obtain ⟨n, hn, hkeeper, -⟩ := hparsed.receives_keeper hmem
    exact ⟨n, hn, hkeeper⟩
  · intro c o hmem
    rcases t.keeper?_cases o with ⟨root, hroot, hkeeper, hstop⟩ | ⟨-, heq⟩
    · obtain ⟨hinside, list, hlist, hspan, n, hn, hnil⟩ := hparsed.displaced hmem hroot hstop
      exact .inr ⟨root, hroot, hkeeper, hstop, hinside, list, hlist, hspan, n, by rw [Tree.home?, hn]; rfl, hnil⟩
    · exact .inl heq
  · rw [hparsed.notes, (holds_ofItems items).2]

theorem attached_of_parse_definition : ∃ t, parse 1 0 "(define ;a\n (f) ;b\n (g ;c\n )) ;d" = .ok t ∧
    t.nodes.map (fun id => ((t.node? id).bind (·.comment)).map Comment.text) =
      [some ";a", none, none, some ";b", some ";c", none] ∧
    ∃ tokens items, Token.tokenize "(define ;a\n (f) ;b\n (g ;c\n )) ;d" = .ok tokens ∧
      Item.read tokens = .ok items ∧ (remarks none items).map Remark.comment = Token.comments tokens ∧
      t.Attached (remarks none items) := by
  have hok : ∃ t ∈ (parse 1 0 "(define ;a\n (f) ;b\n (g ;c\n )) ;d").toOption,
      t.nodes.map (fun id => ((t.node? id).bind (·.comment)).map Comment.text) =
        [some ";a", none, none, some ";b", some ";c", none] := by decide +kernel
  obtain ⟨t, ht, hcomments⟩ := hok
  rw [mem_toOption_iff] at ht
  exact ⟨t, ht, hcomments, attached_of_parse ht⟩

/-- A comment in a list without data is not with the list if a root ends where the list starts. -/
theorem comment_not_at_home : ∃ t tokens items c o, parse 1 0 "x(;c\n)" = .ok t ∧
    Token.tokenize "x(;c\n)" = .ok tokens ∧ Item.read tokens = .ok items ∧ ⟨c, some o⟩ ∈ remarks none items ∧
    t.home? o = some 1 ∧ (t.node? 1).bind (·.comment) = none ∧ (t.node? 0).bind (·.comment) = some c := by
  have hok : ∃ t ∈ (parse 1 0 "x(;c\n)").toOption, ∃ tokens ∈ (Token.tokenize "x(;c\n)").toOption,
      ∃ items ∈ (Item.read tokens).toOption, ∃ r ∈ remarks none items, ∃ o ∈ r.owner, t.home? o = some 1 ∧
        (t.node? 1).bind (·.comment) = none ∧ (t.node? 0).bind (·.comment) = some r.comment := by decide +kernel
  obtain ⟨t, ht, tokens, htokens, items, hitems, ⟨c, owner⟩, hmem, o, rfl, hcomments⟩ := hok
  rw [mem_toOption_iff] at ht htokens hitems
  exact ⟨t, tokens, items, c, o, ht, htokens, hitems, hmem, hcomments⟩

end Scheme

/-! ## All comments -/

/-- The lines of the comments in the tree, those of its nodes and those that are roots. -/
def Tree.commentLines (t : Tree) : List String :=
  (t.nodes.flatMap fun id => ((t.node? id).bind (·.comment)).toList.flatMap Comment.lines) ++
    t.notes.flatMap Comment.lines

namespace Scheme

open Item CommentPlan

theorem flatMap_lines_joinAll (cs : List Comment) :
    (joinAll cs).toList.flatMap Comment.lines = cs.flatMap Comment.lines := by
  cases hcs : joinAll cs with
  | none => rw [joinAll_eq_none_iff.mp hcs, Option.toList_none]
  | some c => rw [Option.toList_some, List.flatMap_singleton, lines_of_joinAll hcs]

theorem Parsed.commentLines_perm {tokens : List Token} {items : List Item} {t : Tree} (h : Parsed tokens items t) :
    t.commentLines.Perm (((remarks none items).map Remark.comment).flatMap Comment.lines) := by
  have hnodes : (t.nodes.flatMap fun id => ((t.node? id).bind (·.comment)).toList.flatMap Comment.lines).Perm
      (t.nodes.flatMap fun id => (t.kept (remarks none items) id).flatMap Comment.lines) := by
    refine List.Perm.flatMap_left _ fun id hid => ?_
    obtain ⟨node, hnode⟩ := h.nested.built.exists_node? hid
    obtain ⟨cs, hperm, hjoin⟩ := h.comment_perm hnode
    rw [hnode, Option.bind_some, hjoin, flatMap_lines_joinAll]
    exact hperm.flatMap_right _
  have hnotes : t.notes.flatMap Comment.lines = (unowned (remarks none items)).flatMap Comment.lines := by
    rw [h.notes, (holds_ofItems items).2, flatMap_lines_joinAll]
  have hsplit : (((remarks none items).filter fun r => r.owner.isSome).map Remark.comment ++
      unowned (remarks none items)).Perm ((remarks none items).map Remark.comment) := by
    rw [unowned, ← List.map_append]
    refine .map _ (.trans (.of_eq ?_) (List.filter_append_perm (fun r : Remark => r.owner.isSome) _))
    congr 1
    exact List.filter_congr fun r _ => by cases r.owner <;> rfl
  rw [Tree.commentLines, hnotes]
  refine (hnodes.append_right _).trans ?_
  rw [← List.flatMap_assoc, ← List.flatMap_append]
  exact ((h.kept_perm.append_right _).trans hsplit).flatMap_right _

/-- No comment of a text is lost, and none is there twice. -/
theorem commentLines_perm_of_parse {depth serial : Nat} {source : String} {t : Tree}
    (h : parse depth serial source = .ok t) : ∃ tokens, Token.tokenize source = .ok tokens ∧
      t.commentLines.Perm ((Token.comments tokens).map Comment.text) := by
  obtain ⟨tokens, items, htokens, hitems, hparsed⟩ := parsed_of_parse h
  refine ⟨tokens, htokens, hparsed.commentLines_perm.trans (.of_eq ?_)⟩
  rw [comments_of_nested (read_eq_ok_iff.mp hitems), List.map_eq_flatMap]
  exact List.flatMap_congr fun c hc => lines_of_mem_comments htokens hc

theorem commentLines_perm_of_parse_definition :
    ∃ t, parse 1 0 "x(;a\n) ;b\n (define ;c\n (f) ;d\n y) ;e\n;f" = .ok t ∧
      t.commentLines = [";a", ";b", ";c", ";d", ";e", ";f"] ∧
      ∃ tokens, Token.tokenize "x(;a\n) ;b\n (define ;c\n (f) ;d\n y) ;e\n;f" = .ok tokens ∧
        t.commentLines.Perm ((Token.comments tokens).map Comment.text) := by
  have hok : ∃ t ∈ (parse 1 0 "x(;a\n) ;b\n (define ;c\n (f) ;d\n y) ;e\n;f").toOption,
      t.commentLines = [";a", ";b", ";c", ";d", ";e", ";f"] := by decide +kernel
  obtain ⟨t, ht, hlines⟩ := hok
  rw [mem_toOption_iff] at ht
  exact ⟨t, ht, hlines, commentLines_perm_of_parse ht⟩

end Scheme

end StructuralEditor
