import StructuralEditor.Proofs.Scheme.Following
import StructuralEditor.Proofs.Scheme.SameSpans

/-!
# Nodes at the same place

What follows the end of a node does not matter for where it stands: in any text with the same beginning, the node that
says the same over the same stretch is found at the same address.

* `Tree.Nested.exists_follower`, `Tree.followed_of_agree` : in a tree of data that agree up to a position, there is a
  node at the place of each one that ends there;
* `Tree.InOrder.eq_of_span_eq` : the nodes that say the same over the same stretch are one;
* `Tree.Nested.eq_of_followed`, `Tree.Nested.eq_of_followed_vacant` : so the node at that place is the one in question,
  also where it is empty;
* `Reads.commentFree`, `address_of_comment` : the comments among the nodes are roots behind all others;
* `exists_beginning_of_node` : a node depends only on the text up to its end and on the next character.
-/

namespace StructuralEditor

open Scheme

theorem getElem?_of_prefix {α : Type} {as bs : List α} (h : as <+: bs) {i : Nat} {a : α} (ha : as[i]? = some a) :
    bs[i]? = some a := by
  obtain ⟨hi, rfl⟩ := List.getElem?_eq_some_iff.mp ha
  exact List.prefix_iff_getElem?.mp h i hi

theorem Kind.exists_functionDefinition {α : Type} {k : Kind α} (h : k.tag = .functionDefinition) :
    ∃ name parameters body, k = .functionDefinition name parameters body := by
  cases k <;> first | exact ⟨_, _, _, rfl⟩ | cases h

/-! ## Nodes of drafts that follow each other -/

namespace Table

variable {t : Table} {id : Nat} {d c : Draft} {step : Step}

theorem Spells.exists_child? (h : t.Spells id d) (hc : d.kind.child? step = some c) :
    ∃ child, t.child? id step = some child ∧ t.Spells child c := by
  obtain ⟨node, m, hnode, -, hkind, hdkind, hbelow⟩ := h.exists_get?
  rw [hdkind, Kind.child?_map] at hc
  obtain ⟨p, hp, rfl⟩ := Option.map_eq_some_iff.mp hc
  refine ⟨p.2, child?_eq_some.mpr ⟨node, hnode, ?_⟩, hbelow p (Kind.mem_children_iff.mpr ⟨step, hp⟩)⟩
  rw [hkind, Kind.child?_map, hp, Option.map_some]

theorem Spells.exists_head (h : t.Spells id d) (hc : c ∈ d.kind.children.head?) :
    ∃ child rest, t.children id = child :: rest ∧ t.Spells child c := by
  obtain ⟨ps, hfst, hsnd, hbelow⟩ := h.exists_children
  cases ps with
  | nil =>
    rw [hfst] at hc
    cases hc
  | cons p ps =>
    rw [hfst] at hc
    cases hc
    exact ⟨p.2, ps.map Prod.snd, hsnd, hbelow p List.mem_cons_self⟩

end Table

namespace Tree

variable {t u : Tree} {S S' : Span → Prop} {rs rs' : List Remark} {q : Position} {d d' : Draft} {m o n x y : Nat}

theorem Nested.forall_stops (h : t.Nested S rs) {P : Position → Prop} (hP : ∀ s, S s → P s.stop) :
    ∀ id ∈ t.nodes, P (t.span id).stop := by
  refine h.built.below_induction fun id hid ih => ?_
  cases h.laid id hid with
  | plain here _ _ => exact hP _ here
  | gathered first rest hchildren _ hstop _ _ =>
    obtain ⟨last, hlast, hstop⟩ := hstop
    exact hstop ▸ ih last hlast
  | vacant s here _ hspan _ _ _ _ =>
    rw [hspan]
    exact hP s here

theorem Built.length_descendants_lt (h : t.Built) : ∀ m ∈ t.nodes, ∀ n ∈ t.descendants m, n ≠ m →
    (t.descendants n).length < (t.descendants m).length := by
  refine h.below_induction fun m hm ih n hn hne => ?_
  obtain ⟨child, hchild, hbelow⟩ := ((h.mem_descendants_iff hm).mp hn).resolve_left hne
  have hlt : (t.descendants child).length < (t.descendants m).length := by
    rw [h.descendants_eq hm, List.length_cons]
    exact Nat.lt_succ_of_le (List.infix_flatMap_of_mem hchild t.descendants).length_le
  by_cases heq : n = child
  · exact heq ▸ hlt
  · exact (ih child hchild n hbelow heq).trans hlt

theorem Built.length_descendants_lt_of_content (ht : t.Built) (hu : u.Built) {child : Nat} (hx : x ∈ t.nodes)
    (hchild : child ∈ t.children x) (hn : n ∈ u.nodes) (hm : m ∈ u.nodes)
    (hcontent : u.table.content n = t.table.content x) (hsame : u.table.content m = t.table.content child) :
    (u.descendants m).length < (u.descendants n).length := by
  have hmem := ht.child_mem hx hchild
  obtain ⟨node, hnode⟩ := ht.exists_node? hx
  obtain ⟨part, hpart⟩ := ht.exists_node? hmem
  obtain ⟨node', hnode'⟩ := hu.exists_node? hn
  obtain ⟨part', hpart'⟩ := hu.exists_node? hm
  have hself := (ht.mem_descendants_iff hmem).mpr (.inl rfl)
  calc (u.descendants m).length
      = (t.descendants child).length := Table.length_descendants_eq hu.ordered ht.ordered hpart' hpart hsame
    _ < (t.descendants x).length := ht.length_descendants_lt x hx child
        ((ht.mem_descendants_iff hx).mpr (.inr ⟨child, hchild, hself⟩)) (ht.ordered x child hchild).ne
    _ = (u.descendants n).length := (Table.length_descendants_eq hu.ordered ht.ordered hnode' hnode hcontent).symm

theorem InOrder.eq_of_span_eq (h : t.InOrder) (hb : t.Built) (hm : m ∈ t.nodes) (hn : n ∈ t.nodes)
    (hspan : t.span m = t.span n) (hcontent : t.table.content m = t.table.content n) : m = n := by
  obtain ⟨a, ha⟩ := hb.exists_node? hm
  obtain ⟨b, hb'⟩ := hb.exists_node? hn
  have hlength : (t.descendants m).length = (t.descendants n).length :=
    Table.length_descendants_eq hb.ordered hb.ordered ha hb' hcontent
  rcases pairwise_cases h.chains hm hn with heq | hbelow | hbelow
  · exact heq
  · by_contra hne
    exact (hb.length_descendants_lt m hm n (hbelow hspan) (Ne.symm hne)).ne hlength.symm
  · by_contra hne
    exact (hb.length_descendants_lt n hn m (hbelow hspan.symm) hne).ne hlength

/-- A node of the second tree is at the place of one of the first that ends by the position, below nodes of the same
forms. It spells the same draft, unless that goes on. -/
theorem Nested.exists_follower (h : t.Nested S rs) {steps : List Step} (ho : o ∈ t.nodes) (hd : t.table.Spells o d)
    (hd' : u.table.Spells n d') (hx : t.table.below? o steps = some x) (hends : (t.span x).EndsBy q)
    (hfollows : d.Follows q steps d') :
    ∃ y e e', u.table.below? n steps = some y ∧ t.table.Spells x e ∧ u.table.Spells y e' ∧ (e = e' ∨ e.Outgrown q e') ∧
      Table.SameForms t.table u.table o n steps := by
  induction steps generalizing o n d d' with
  | nil =>
    cases hx
    have hend : d = d' ∨ d.Outgrown q d' := hfollows (span_of_spells hd ▸ hends.2)
    have htag : d.kind.tag = d'.kind.tag := hend.elim (fun heq => heq ▸ rfl) Draft.Outgrown.tag
    exact ⟨n, d, d', rfl, hd, hd', hend, Table.sameForms_nil.mpr (by rw [hd.tag, hd'.tag, htag])⟩
  | cons step rest ih =>
    obtain ⟨child, hchild, hx⟩ := Table.below?_cons_eq_some.mp hx
    obtain ⟨c, hc, hspells⟩ := hd.child hchild
    obtain ⟨node, hnode, hstep⟩ := Table.child?_eq_some.mp hchild
    have hmem : child ∈ t.nodes := by
      refine h.built.child_mem ho ?_
      rw [children_of_node? hnode]
      exact Kind.mem_children_iff.mpr ⟨step, hstep⟩
    have hbelow : x ∈ t.descendants child :=
      (Table.mem_descendants_iff h.built.ordered hspells.lt_size).mpr ⟨rest, hx⟩
    have hcovers := h.covers child hmem x hbelow
    have hnear : c.Near q := by
      rw [Draft.Near, ← span_of_spells hspells]
      exact ⟨hcovers.1.trans_lt (hends.1.trans_le hends.2), hcovers.1.trans_lt (hends.1.trans_le hcovers.2)⟩
    obtain ⟨htag, c', hc', hrest⟩ := hfollows c hc hnear
    obtain ⟨child', hchild', hspells'⟩ := hd'.exists_child? hc'
    obtain ⟨y, e, e', hy, he, he', hend, hforms⟩ := ih hmem hspells hspells' hx hrest
    refine ⟨y, e, e', Table.below?_cons_eq_some.mpr ⟨child', hchild', hy⟩, he, he', hend, ?_⟩
    exact (Table.sameForms_cons hchild hchild').mpr ⟨by rw [hd.tag, hd'.tag, htag], hforms⟩

/-- Below the first node over a row there is none that takes as much of the text and says more. -/
theorem Nested.not_below_of_outgrown (hu : u.Nested S rs) {first : Nat} {rest : List Nat} (hy : y ∈ u.nodes)
    (hchildren : u.children y = first :: rest) (hproper : (u.span first).start < (u.span first).stop)
    (hcovers : (u.span n).Covers (u.span first)) (hlt : (u.descendants first).length < (u.descendants n).length)
    (hne : n ≠ y) : n ∉ u.descendants y := by
  intro hbelow
  obtain ⟨child, hchild, hn'⟩ := ((hu.built.mem_descendants_iff hy).mp hbelow).resolve_left hne
  have happart := hu.apart y hy
  rw [hchildren] at hchild happart
  have hfirst : first ∈ u.nodes := hu.built.child_mem hy (hchildren ▸ List.mem_cons_self)
  rcases List.mem_cons.mp hchild with rfl | hrest
  · by_cases heq : n = child
    · exact absurd hlt (heq ▸ lt_irrefl _)
    · exact absurd hlt (hu.built.length_descendants_lt child hfirst n hn' heq).asymm
  · have hmem := hu.built.child_mem hy (hchildren ▸ List.mem_cons_of_mem _ hrest)
    have hle := ((List.pairwise_cons.mp happart).1 child hrest).apart
    have hwithin := (hu.covers child hmem n hn').1.trans hcovers.1
    exact absurd hproper (not_lt.mpr (hle.trans hwithin))

/-- The node at the place of one that ends at the position, is the one that says the same over the same stretch. -/
theorem Nested.eq_of_follower (ht : t.Nested S rs) (hu : u.Nested S' rs') (hin : u.InOrder) (hx : x ∈ t.nodes)
    (hy : y ∈ u.nodes) (hn : n ∈ u.nodes) (hd : t.table.Spells x d) (hd' : u.table.Spells y d')
    (hend : d = d' ∨ d.Outgrown (t.span x).stop d') (hspan : u.span n = t.span x)
    (hcontent : u.table.content n = t.table.content x) : n = y := by
  rcases hend with rfl | ⟨-, hlt, c, hc, hc', hnear⟩
  · refine hin.eq_of_span_eq hu.built hn hy ?_ ?_
    · rw [hspan, span_of_spells hd, span_of_spells hd']
    · rw [hcontent, hd.content ht.built.ordered, hd'.content hu.built.ordered]
  · rw [← span_of_spells hd', ← hspan] at hlt
    obtain ⟨first, rest, hchildren, hfirst⟩ := hd.exists_head hc
    obtain ⟨first', rest', hchildren', hfirst'⟩ := hd'.exists_head hc'
    have hchild : first ∈ t.children x := by
      rw [show t.children x = _ from hchildren]
      exact List.mem_cons_self
    have hchild' : first' ∈ u.children y := by
      rw [show u.children y = _ from hchildren']
      exact List.mem_cons_self
    have hcovers : (u.span n).Covers (u.span first') := by
      rw [hspan, span_of_spells hfirst', ← span_of_spells hfirst]
      exact ht.covers_child hx hchild
    have hcovers' := hu.covers_child hy hchild'
    have hproper : (u.span first').start < (u.span first').stop := by
      rw [span_of_spells hfirst']
      exact hnear.2
    have hsame : u.table.content first' = t.table.content first := by
      rw [hfirst.content ht.built.ordered, hfirst'.content hu.built.ordered]
    have hlength := ht.built.length_descendants_lt_of_content hu.built hx hchild hn (hu.built.child_mem hy hchild')
      hcontent hsame
    rcases pairwise_cases hu.pairwise_nodes hn hy with rfl | (hbelow | happart) | hbelow | happart
    · exact absurd hlt (lt_irrefl _)
    · exact absurd hlt (not_lt.mpr (hu.covers n hn y hbelow).2)
    · exact absurd hproper (not_lt.mpr (hcovers.2.trans (happart.trans hcovers'.1)))
    · have hne : n ≠ y := by
        rintro rfl
        exact lt_irrefl _ hlt
      exact absurd hbelow (hu.not_below_of_outgrown hy hchildren' hproper hcovers hlength hne)
    · exact absurd hproper (not_lt.mpr (hcovers'.2.trans (happart.trans hcovers.1)))

/-! ## Nodes that are followed -/

/-- Whatever ends by the position in the first tree, has a node at its place in the second, below nodes of the same
forms. That spells the same draft, unless it goes on. -/
def Followed (t u : Tree) (q : Position) : Prop :=
  ∀ a x, t.at? a = some x → (t.span x).EndsBy q → ∃ y d d', u.at? a = some y ∧ t.table.Spells x d ∧
    u.table.Spells y d' ∧ (d = d' ∨ d.Outgrown q d') ∧ SameForms t u a

section Followed

variable {a a' : Address} (ht : t.Nested S rs) (hu : u.Nested S' rs')

include ht hu

theorem Nested.eq_of_followed (hin : u.InOrder) (hfollowed : Followed t u (t.span x).stop)
    (hproper : (t.span x).start < (t.span x).stop) (hat : t.at? a = some x) (hat' : u.at? a' = some n)
    (hspan : u.span n = t.span x) (hcontent : u.table.content n = t.table.content x) :
    a' = a ∧ SameForms t u a := by
  obtain ⟨y, d, d', hy, hd, hd', hend, hforms⟩ := hfollowed a x hat ⟨hproper, le_rfl⟩
  have heq := ht.eq_of_follower hu hin (ht.built.mem_nodes_iff.mpr ⟨a, hat⟩) (hu.built.mem_nodes_iff.mpr ⟨a, hy⟩)
    (hu.built.mem_nodes_iff.mpr ⟨a', hat'⟩) hd hd' hend hspan hcontent
  subst heq
  exact ⟨hu.unshared a' a n hat' hy, hforms⟩

end Followed

/-! ### Missing parameters -/

section Functions

variable {above name parameters body : Nat} {node : Node} (h : t.Nested S rs) (habove : above ∈ t.nodes)
  (hnode : t.node? above = some node) (hkind : node.kind = .functionDefinition name parameters body)

include h habove hnode hkind

theorem Nested.function_row : t.children above = [name, parameters, body] ∧
    (t.span name).stop ≤ (t.span parameters).start ∧ (t.span name).stop ≤ (t.span body).start ∧
    (t.span body).start < (t.span body).stop := by
  have hchildren : t.children above = [name, parameters, body] := by
    rw [children_of_node? hnode, hkind]
    rfl
  have happart := h.apart above habove
  rw [hchildren, List.pairwise_cons] at happart
  refine ⟨hchildren, (happart.1 parameters (by simp)).apart, (happart.1 body (by simp)).apart, ?_⟩
  have hbody : body ∈ t.children above := by simp [hchildren]
  cases h.laid above habove with
  | plain _ _ filled =>
    obtain filled | ⟨node', _, _, _, hnode', hkind', -, hbody', -⟩ := filled
    · exact filled body hbody
    · cases hnode.symm.trans hnode'
      cases hkind.symm.trans hkind'
      exact hbody'
  | gathered _ _ _ _ _ _ filled => exact filled body hbody
  | vacant _ _ _ _ _ node' hnode' hkind' =>
    cases hnode.symm.trans hnode'
    cases hkind.symm.trans hkind'

theorem Nested.function_vacant (hempty : (t.span parameters).start = (t.span parameters).stop) :
    (t.span name).start < (t.span name).stop ∧ t.children name = [] ∧
      (t.span parameters).start = (t.span name).stop := by
  have hparameters : parameters ∈ t.children above := by simp [(h.function_row habove hnode hkind).1]
  cases h.laid above habove with
  | plain _ _ filled =>
    obtain filled | ⟨node', _, _, _, hnode', hkind', hname, -, hleaf, hstart⟩ := filled
    · exact absurd hempty (filled parameters hparameters).ne
    · cases hnode.symm.trans hnode'
      cases hkind.symm.trans hkind'
      exact ⟨hname, hleaf, hstart hempty⟩
  | gathered _ _ _ _ _ _ filled => exact absurd hempty (filled parameters hparameters).ne
  | vacant _ _ _ _ _ node' hnode' hkind' =>
    cases hnode.symm.trans hnode'
    cases hkind.symm.trans hkind'

end Functions

/-- Around missing parameters stands their function only, and what is above it. -/
theorem Nested.eq_of_vacant_function (hu : u.Nested S rs) {above above' name parameters body : Nat} {node : Node}
    (habove : above ∈ u.nodes) (hn : n ∈ u.children above) (hempty : (u.span n).start = (u.span n).stop)
    (hstart : (u.span above).start < (u.span n).start) (hstop : (u.span n).stop < (u.span above).stop)
    (habove' : above' ∈ u.nodes) (hnode : u.node? above' = some node)
    (hkind : node.kind = .functionDefinition name parameters body)
    (hproper : (u.span name).start < (u.span name).stop) (hname : (u.span name).stop = (u.span n).stop) :
    above' = above := by
  obtain ⟨hchildren, hparameters, hbody, hfilled⟩ := hu.function_row habove' hnode hkind
  have hcover : ∀ child ∈ [name, parameters, body], (u.span above').Covers (u.span child) :=
    fun child hchild => hu.covers_child habove' (hchildren ▸ hchild)
  have hstart' : (u.span above').start < (u.span n).start :=
    (hcover name (by simp)).1.trans_lt (hproper.trans_eq (hname.trans hempty.symm))
  have hstop' : (u.span n).stop < (u.span above').stop :=
    (hname.symm.trans_le hbody).trans_lt (hfilled.trans_le (hcover body (by simp)).2)
  rcases pairwise_cases hu.pairwise_nodes habove habove' with heq | (hbelow | happart) | hbelow | happart
  · exact heq.symm
  · exact hu.eq_of_around habove hn hempty hbelow hstart' hstop'
  · order
  · rcases (hu.built.mem_descendants_iff habove').mp hbelow with heq | ⟨child, hchild, hwithin⟩
    · exact heq.symm
    · have hcovers := hu.covers child (hu.built.child_mem habove' hchild) above hwithin
      obtain ⟨hlow, hhigh⟩ := hcovers
      rw [hchildren] at hchild
      rcases List.mem_cons.mp hchild with rfl | hchild
      · order
      · rcases List.mem_cons.mp hchild with rfl | hchild
        · order
        · cases List.mem_singleton.mp hchild
          order
  · order

/-- With its name, a function is followed: the name has no children, so nothing can have been put behind them. -/
theorem Followed.exists_function (hfollowed : Followed t u q) {i : Nat} {steps : List Step}
    {above name parameters body : Nat} {node : Node} (hat : t.at? ⟨i, steps⟩ = some above)
    (hnode : t.node? above = some node) (hkind : node.kind = .functionDefinition name parameters body)
    (hends : (t.span name).EndsBy q) (hleaf : t.children name = []) :
    ∃ above' node' name' parameters' body', u.at? ⟨i, steps⟩ = some above' ∧ u.node? above' = some node' ∧
      node'.kind = .functionDefinition name' parameters' body' ∧ u.span name' = t.span name ∧
      SameForms t u ⟨i, steps⟩ := by
  have hname : t.at? ⟨i, steps ++ [⟨0, 0⟩]⟩ = some name :=
    at?_concat.mpr ⟨above, hat, Table.child?_eq_some.mpr ⟨node, hnode, by rw [hkind]; rfl⟩⟩
  obtain ⟨name', d, d', hname', hd, hd', hend, hforms⟩ := hfollowed _ name hname hends
  have hforms : SameForms t u ⟨i, steps⟩ := fun way hway => hforms way (hway.trans (List.prefix_append steps _))
  have hsame : d = d' := by
    rcases hend with heq | hgrown
    · exact heq
    · obtain ⟨c, hc, -⟩ := hgrown.first
      obtain ⟨first, rest, hchildren, -⟩ := hd.exists_head hc
      rw [show t.children name = _ from hchildren] at hleaf
      cases hleaf
  subst hsame
  obtain ⟨above', hat', hstep'⟩ := at?_concat.mp hname'
  have htag : some node.kind.tag = u.table.tag? above' := by
    have hway := hforms steps List.prefix_rfl
    rw [tagAt?, tagAt?, hat, hat', Option.bind_some, Option.bind_some, Table.tag?,
      show t.table.get? above = some node from hnode] at hway
    exact hway
  obtain ⟨node', hnode', htag⟩ := Option.map_eq_some_iff.mp htag.symm
  obtain ⟨name₁, parameters', body', hkind'⟩ := Kind.exists_functionDefinition (htag.trans (hkind ▸ rfl))
  obtain rfl : name₁ = name' := by
    rw [Table.child?_of_get? hnode', hkind'] at hstep'
    exact Option.some.inj hstep'
  refine ⟨above', node', name₁, parameters', body', hat', hnode', hkind', ?_, hforms⟩
  rw [span_of_spells hd, span_of_spells hd']

theorem Nested.eq_of_followed_vacant (ht : t.Nested S rs) (hu : u.Nested S' rs')
    (hroots : ∀ root ∈ t.roots, (t.span root).start < (t.span root).stop)
    (hroots' : ∀ root ∈ u.roots, (u.span root).start < (u.span root).stop) {a a' : Address}
    (hfollowed : Followed t u (t.span x).stop) (hempty : (t.span x).start = (t.span x).stop) (hat : t.at? a = some x)
    (hat' : u.at? a' = some n) (hspan : u.span n = t.span x) (hcontent : u.table.content n = t.table.content x) :
    a' = a ∧ SameForms t u a := by
  have hx := ht.built.mem_nodes_iff.mpr ⟨a, hat⟩
  have hn := hu.built.mem_nodes_iff.mpr ⟨a', hat'⟩
  have hempty' : (u.span n).start = (u.span n).stop := by rw [hspan, hempty]
  obtain ⟨above, habove, -, ⟨node, name, body, hnode, hkind⟩, -, -⟩ := ht.exists_function_of_vacant hroots hx hempty
  obtain ⟨hproper, hleaf, hstart⟩ := ht.function_vacant habove hnode hkind hempty
  obtain ⟨⟨i, steps⟩, haboveAt⟩ := ht.built.mem_nodes_iff.mp habove
  obtain rfl : a = ⟨i, steps ++ [⟨1, 0⟩]⟩ := ht.unshared _ _ x hat
    (at?_concat.mpr ⟨above, haboveAt, Table.child?_eq_some.mpr ⟨node, hnode, by rw [hkind]; rfl⟩⟩)
  obtain ⟨above', node', name', parameters', body', haboveAt', hnode', hkind', hname, hforms⟩ :=
    hfollowed.exists_function haboveAt hnode hkind ⟨hproper, (hstart ▸ hempty).le⟩ hleaf
  obtain ⟨other, hother, hmem, ⟨node₂, name₂, body₂, hnode₂, hkind₂⟩, hlow, hhigh⟩ :=
    hu.exists_function_of_vacant hroots' hn hempty'
  obtain rfl : above' = other := by
    refine hu.eq_of_vacant_function hother hmem hempty' hlow hhigh (hu.built.mem_nodes_iff.mpr ⟨_, haboveAt'⟩) hnode'
      hkind' ?_ ?_
    · rw [hname]
      exact hproper
    · rw [hname, hspan, ← hstart, hempty]
  cases hnode'.symm.trans hnode₂
  cases hkind'.symm.trans hkind₂
  have hplace : u.at? ⟨i, steps ++ [⟨1, 0⟩]⟩ = some n :=
    at?_concat.mpr ⟨above', haboveAt', Table.child?_eq_some.mpr ⟨node', hnode', by rw [hkind']; rfl⟩⟩
  refine ⟨hu.unshared _ _ n hat' hplace, fun way hway => ?_⟩
  rcases List.prefix_concat_iff.mp hway with rfl | hway
  · obtain ⟨old, hold⟩ := ht.built.exists_node? hx
    obtain ⟨new, hnew⟩ := hu.built.exists_node? hn
    rw [tagAt?, tagAt?, hat, hplace, Option.bind_some, Option.bind_some]
    exact Table.tag?_eq_of_content ht.built.ordered hu.built.ordered hold hnew hcontent.symm
  · exact hforms way hway

/-! ## Nodes of texts that begin alike -/

theorem followed_of_agree (ht : t.Nested S rs) (hfirst : t.codeRoots <+: t.roots) (hfirst' : u.codeRoots <+: u.roots)
    {data data' : List Datum} (hstands : List.Forall₂ t.StandsFor t.codeRoots data)
    (hstands' : List.Forall₂ u.StandsFor u.codeRoots data') (hagree : Datum.Agree q data data')
    (hcode : ∀ root ∈ t.roots, root ∉ t.codeRoots → q ≤ (t.span root).start) : Followed t u q := by
  rintro ⟨i, steps⟩ x hat hends
  obtain ⟨root, hroot, hx⟩ := at?_eq_some.mp hat
  have hmem := ht.built.root_mem (List.mem_of_getElem? hroot)
  obtain ⟨node, hnode⟩ := ht.built.exists_node? hmem
  have hcovers := ht.covers root hmem x
    ((Table.mem_descendants_iff ht.built.ordered (Table.exists_get?_iff_lt.mp ⟨node, hnode⟩)).mpr ⟨steps, hx⟩)
  have hlt : (t.span root).start < q := hcovers.1.trans_lt (hends.1.trans_le hends.2)
  have hroot' : root ∈ t.codeRoots := by
    by_contra hno
    exact absurd hlt (not_lt.mpr (hcode root (List.mem_of_getElem? hroot) hno))
  obtain ⟨j, hj⟩ := List.mem_iff_getElem?.mp hroot'
  obtain rfl : j = i := by
    have hplace : t.at? ⟨j, []⟩ = some root := at?_eq_some.mpr ⟨root, getElem?_of_prefix hfirst hj, rfl⟩
    exact congrArg Address.root (ht.unshared ⟨j, []⟩ ⟨i, []⟩ root hplace (at?_eq_some.mpr ⟨root, hroot, rfl⟩))
  obtain ⟨datum, hdatum, hspan, d, hdraft, hspells⟩ := exists_getElem?_of_forall₂ hstands hj
  obtain ⟨datum', hdatum', hmeets⟩ := hagree.exists_getElem? hdatum (hspan ▸ hlt)
  obtain ⟨root', hother, -, d', hdraft', hspells'⟩ := exists_getElem?_of_forall₂ hstands'.flip hdatum'
  have hplace := getElem?_of_prefix hfirst' hother
  obtain ⟨y, e, e', hy, he, he', hend, hforms⟩ := ht.exists_follower hmem hspells hspells' hx hends
    ((Datum.reads_of_draft datum hdraft).carries datum' d' (Datum.reads_of_draft datum' hdraft') hmeets steps)
  exact ⟨y, e, e', at?_eq_some.mpr ⟨root', hplace, hy⟩, he, he', hend, (sameForms_iff hroot hplace).mpr hforms⟩

end Tree

/-! ## Nodes of comments -/

namespace Scheme

inductive Draft.CommentFree : Draft → Prop
  | mk {span : Span} {label : String} {kind : Kind Draft} (htag : kind.tag ≠ .comment)
    (hbelow : ∀ c ∈ kind.children, CommentFree c) : CommentFree (.mk span label kind)

theorem Draft.commentFree_ofAtom (text : String) (span : Span) : (ofAtom text span).CommentFree := by
  unfold ofAtom
  split
  · exact .mk nofun nofun
  · exact .mk nofun nofun

theorem Draft.commentFree_ofNames (role : String) (span : Span) (names : List (String × Span)) :
    (ofNames role span names).CommentFree := by
  refine .mk nofun fun c hc => ?_
  rw [children_ofNames, List.map_map] at hc
  obtain ⟨name, -, rfl⟩ := List.mem_map.mp hc
  exact commentFree_ofAtom name.1 name.2

theorem Draft.commentFree_sequence {ds : List Draft} (h : ∀ d ∈ ds, d.CommentFree) (span : Span) (label name : String) :
    (mk span label (.sequence name ds)).CommentFree := by
  refine .mk nofun fun c hc => h c ?_
  simpa [Kind.children, Kind.fields, Field.nodes] using hc

theorem commentFree_of_mem {ps : List (Datum × Draft)} (h : ∀ p ∈ ps, p.2.CommentFree) :
    ∀ c ∈ ps.map Prod.snd, c.CommentFree := by
  intro c hc
  obtain ⟨p, hp, rfl⟩ := List.mem_map.mp hc
  exact h p hp

theorem Reads.commentFree {slot : Slot} {datum : Datum} {d : Draft} (h : Reads slot datum d) : d.CommentFree := by
  induction h with
  | atom text span => exact Draft.commentFree_ofAtom text span
  | string text span => exact .mk nofun nofun
  | emptyList span => exact .mk nofun nofun
  | application span _ _ _ ihhead ih =>
    exact .mk nofun (by
      simpa [Kind.children, Kind.fields, Field.nodes] using ⟨ihhead, fun d datum hp => ih (datum, d) hp⟩)
  | variableDefinition name nameSpan span _ _ ih | binding name nameSpan span _ ih =>
    exact .mk nofun (by
      simpa [Kind.children, Kind.fields, Field.nodes] using ⟨Draft.commentFree_ofAtom name nameSpan, ih⟩)
  | functionDefinition name nameSpan headerSpan span ns _ _ ih =>
    exact .mk nofun (by simpa [Kind.children, Kind.fields, Field.nodes] using
      ⟨Draft.commentFree_ofAtom name nameSpan, Draft.commentFree_ofNames "parameters" _ ns, ih⟩)
  | structDefinition name nameSpan fieldsSpan span fields _ =>
    exact .mk nofun (by simpa [Kind.children, Kind.fields, Field.nodes] using
      ⟨Draft.commentFree_ofAtom name nameSpan, Draft.commentFree_ofNames "fields" fieldsSpan fields⟩)
  | lambda parametersSpan span ns _ _ ih =>
    exact .mk nofun (by simpa [Kind.children, Kind.fields, Field.nodes] using
      ⟨Draft.commentFree_ofNames "parameters" parametersSpan ns, ih⟩)
  | ifElse span _ _ _ _ ihtest ihconsequent ihalternative =>
    exact .mk nofun (by simpa [Kind.children, Kind.fields, Field.nodes] using ⟨ihtest, ihconsequent, ihalternative⟩)
  | conditional span _ _ _ ih | begin span _ _ _ ih =>
    exact .mk nofun (by simpa [Kind.children, Kind.fields, Field.nodes] using fun d datum hp => ih (datum, d) hp)
  | clause span _ _ _ ihtest ih =>
    exact .mk nofun (by
      simpa [Kind.children, Kind.fields, Field.nodes] using ⟨ihtest, fun d datum hp => ih (datum, d) hp⟩)
  | guarded span _ _ _ ihpredicate ih =>
    obtain ⟨hfirst, hothers⟩ := List.forall_mem_cons.mp ih
    have hbody := Draft.commentFree_sequence (List.forall_mem_cons.mpr ⟨hfirst, commentFree_of_mem hothers⟩)
    exact .mk nofun (by simpa [Kind.children, Kind.fields, Field.nodes] using ⟨ihpredicate, hbody _ _ "begin"⟩)
  | letForm bindingsSpan span _ _ _ ih ihbody =>
    have hbindings := Draft.commentFree_sequence (commentFree_of_mem ih)
    exact .mk nofun (by
      simpa [Kind.children, Kind.fields, Field.nodes] using ⟨hbindings bindingsSpan _ "bindings", ihbody⟩)

theorem tag?_ne_comment_of_spells {t : Table} {d : Draft} {o x : Nat} {steps : List Step} (hd : t.Spells o d)
    (h : d.CommentFree) (hx : t.below? o steps = some x) : t.tag? x ≠ some .comment := by
  induction steps generalizing o d with
  | nil =>
    cases hx
    cases h with
    | mk htag _ =>
      rw [hd.tag]
      exact fun heq => htag (Option.some.inj heq)
  | cons step rest ih =>
    obtain ⟨child, hchild, hx⟩ := Table.below?_cons_eq_some.mp hx
    obtain ⟨c, hc, hspells⟩ := hd.child hchild
    cases h with
    | mk _ hbelow => exact ih hspells (hbelow c (Kind.mem_children_iff.mpr ⟨step, hc⟩)) hx

section Parsing

variable {depth serial depth' serial' : Nat} {source source' : String} {t u : Tree} {a a' : Address} {o n root : Nat}

theorem stop_le_start_of_not_mem (h : parse depth serial source = .ok t) {other : Nat} (hroot : root ∈ t.codeRoots)
    (hother : other ∈ t.roots) (hno : other ∉ t.codeRoots) : (t.span root).stop ≤ (t.span other).start := by
  obtain ⟨tokens, items, -, -, hparsed⟩ := parsed_of_parse h
  have hroots := hparsed.nested.roots
  obtain ⟨rest, hrest⟩ := codeRoots_prefix_of_parse h
  rw [← hrest] at hroots hother
  exact (List.pairwise_append.mp hroots).2.2 root hroot other ((List.mem_append.mp hother).resolve_left hno)

/-- A comment is only the root behind all others. -/
theorem address_of_comment (h : parse depth serial source = .ok t) (hat : t.at? a = some o)
    (htag : t.table.tag? o = some .comment) : a = ⟨t.codeRoots.length, []⟩ ∧ o ∈ t.roots ∧ o ∉ t.codeRoots := by
  obtain ⟨tokens, items, drafts, htokens, hitems, hdrafts, rfl⟩ := parse_eq_ok_iff.mp h
  obtain ⟨i, steps⟩ := a
  obtain ⟨root, hroot, ho⟩ := Tree.at?_eq_some.mp hat
  have hstands := standsFor_codeRoots hdrafts depth serial
  have hcode := spells_codeRoots hdrafts depth serial
  have hno : root ∉ (plantProgram depth serial items drafts).codeRoots := by
    intro hmem
    obtain ⟨j, hj⟩ := List.mem_iff_getElem?.mp hmem
    obtain ⟨datum, -, -, d, hdraft, hspells⟩ := exists_getElem?_of_forall₂ hstands hj
    exact tag?_ne_comment_of_spells hspells (Datum.reads_of_draft datum hdraft).commentFree ho htag
  obtain ⟨d, hd, hspells⟩ := exists_getElem?_of_forall₂ (spelled_plantProgram depth serial items drafts).roots hroot
  have hle : drafts.length ≤ i := by
    by_contra hlt
    have hlt : i < (plantProgram depth serial items drafts).codeRoots.length := by
      rw [hcode.length_eq]
      omega
    have hget := getElem?_of_prefix (codeRoots_prefix_of_parse h) (List.getElem?_eq_getElem hlt)
    cases hget.symm.trans hroot
    exact hno (List.getElem_mem hlt)
  rw [List.getElem?_append_right hle] at hd
  cases htrailing : (CommentPlan.ofItems items).2 with
  | none =>
    rw [htrailing] at hd
    cases hd
  | some c =>
    rw [htrailing] at hd
    obtain ⟨hi, rfl⟩ := List.getElem?_eq_some_iff.mp hd
    obtain rfl : i = drafts.length := by
      simp at hi
      omega
    cases steps with
    | nil =>
      cases ho
      exact ⟨by rw [hcode.length_eq], List.mem_of_getElem? hroot, hno⟩
    | cons step rest =>
      obtain ⟨child, hchild, -⟩ := Table.below?_cons_eq_some.mp ho
      obtain ⟨e, he, -⟩ := hspells.child hchild
      simp [Draft.ofComment, Draft.kind, Kind.child?, Kind.fields] at he

theorem length_codeRoots_le (h : parse depth serial source = .ok t) (h' : parse depth' serial' source' = .ok u)
    {first rest rest' : List Char} (hsource : source.toList = first ++ rest)
    (hsource' : source'.toList = first ++ rest')
    (hbefore : ∀ root ∈ t.codeRoots, (t.span root).stop < Position.zero.after first) :
    t.codeRoots.length ≤ u.codeRoots.length := by
  cases hcode : t.codeRoots.getLast? with
  | none =>
    rw [List.getLast?_eq_none_iff.mp hcode]
    exact Nat.zero_le _
  | some root =>
    rw [List.getLast?_eq_getElem?] at hcode
    obtain ⟨first₁, rest₁, _, hfirst₁, hstop, -, hsame⟩ := exists_beginning_of_codeRoot h hcode
    have hlt := hbefore root (List.mem_of_getElem? hcode)
    rw [hstop] at hlt
    obtain ⟨more, hmore, rfl⟩ | ⟨more, hmore, rfl⟩ := List.append_eq_append_iff.mp (hfirst₁.symm.trans hsource)
    · cases more with
      | nil =>
        rw [hmore, List.append_nil] at hlt
        exact absurd hlt (lt_irrefl _)
      | cons c more =>
        rw [hmore, List.append_assoc] at hsource'
        obtain ⟨root', hroot', -⟩ := hsame hsource' (by simp) h'
        have hlength := (List.getElem?_eq_some_iff.mp hroot').1
        omega
    · rw [hmore, Position.after_append] at hlt
      exact absurd hlt (not_lt.mpr (Position.le_after _ more))

theorem at?_eq_of_comment (h : parse depth serial source = .ok t) (h' : parse depth' serial' source' = .ok u)
    {first rest rest' : List Char} (hsource : source.toList = first ++ rest)
    (hsource' : source'.toList = first ++ rest') (hat : t.at? a = some o) (htag : t.table.tag? o = some .comment)
    (hstop : (t.span o).stop = Position.zero.after first) (hat' : u.at? a' = some n)
    (htag' : u.table.tag? n = some .comment) (hspan : u.span n = t.span o) :
    a' = a ∧ Tree.SameForms t u a := by
  obtain ⟨rfl, hmem, hno⟩ := address_of_comment h hat htag
  obtain ⟨rfl, hmem', hno'⟩ := address_of_comment h' hat' htag'
  obtain ⟨tokens, items, -, -, hparsed⟩ := parsed_of_parse h
  have hproper := (hparsed.root_proper hmem).2.2
  have heq : u.codeRoots.length = t.codeRoots.length := by
    refine le_antisymm (length_codeRoots_le h' h hsource' hsource fun root hroot => ?_)
      (length_codeRoots_le h h' hsource hsource' fun root hroot => ?_)
    · rw [← hstop]
      exact (hspan ▸ stop_le_start_of_not_mem h' hroot hmem' hno').trans_lt hproper
    · rw [← hstop]
      exact (stop_le_start_of_not_mem h hroot hmem hno).trans_lt hproper
  refine ⟨by rw [heq], fun way hway => ?_⟩
  obtain rfl := List.prefix_nil.mp hway
  rw [Tree.tagAt?, Tree.tagAt?, hat, ← heq, hat', Option.bind_some, Option.bind_some, htag, htag']

theorem exists_codeRoot (h : parse depth serial source = .ok t) (hat : t.at? a = some o)
    (htag : t.table.tag? o ≠ some .comment) : ∃ root ∈ t.codeRoots, o ∈ t.descendants root := by
  obtain ⟨i, steps⟩ := a
  obtain ⟨root, hroot, ho⟩ := Tree.at?_eq_some.mp hat
  obtain ⟨tokens, items, -, -, hparsed⟩ := parsed_of_parse h
  have hb := hparsed.nested.built
  obtain ⟨node, hnode⟩ := hb.exists_node? (hb.root_mem (List.mem_of_getElem? hroot))
  refine ⟨root, List.mem_filter.mpr ⟨List.mem_of_getElem? hroot, ?_⟩,
    (Table.mem_descendants_iff hb.ordered (Table.exists_get?_iff_lt.mp ⟨node, hnode⟩)).mpr ⟨steps, ho⟩⟩
  rw [decide_eq_true_iff]
  intro hcomment
  cases steps with
  | nil =>
    cases ho
    exact htag hcomment
  | cons step rest =>
    obtain ⟨child, hchild, -⟩ := Table.below?_cons_eq_some.mp ho
    rw [Table.tag?, show t.table.get? root = some node from hnode] at hcomment
    have hkind : node.kind.tag = .comment := Option.some.inj hcomment
    have hleaf : node.kind.isLeaf = true := by
      rw [Kind.isLeaf, hkind]
      rfl
    rw [Table.child?_of_get? hnode, Kind.child?_eq_none_of_isLeaf hleaf] at hchild
    cases hchild

theorem Parsed.exists_span_of_stop {tokens : List Token} {items : List Item} (hparsed : Parsed tokens items t)
    (hstands : List.Forall₂ t.StandsFor t.codeRoots (Item.data items)) (hmem : root ∈ t.nodes)
    (hroot : root ∈ t.codeRoots) (ho : o ∈ t.descendants root) :
    ∃ s ∈ Item.spans items, s.stop = (t.span o).stop := by
  obtain ⟨b, c, harranged⟩ := hparsed.arranged
  obtain ⟨s, hs, hstop⟩ : ∃ s ∈ nodeSpans items, s.stop = (t.span o).stop :=
    hparsed.nested.forall_stops (P := fun p => ∃ s ∈ nodeSpans items, s.stop = p) (fun s hs => ⟨s, hs, rfl⟩) o
      (hparsed.nested.built.descendants_subset root hmem o ho).1
  rcases List.mem_append.mp hs with hs | hs
  · exact ⟨s, hs, hstop⟩
  · -- The comment behind all data ends behind the root.
    obtain ⟨comment, hcomment, rfl⟩ := List.mem_map.mp hs
    obtain ⟨i, hi⟩ := List.mem_iff_getElem?.mp hroot
    obtain ⟨datum, hdatum, hspan, -⟩ := exists_getElem?_of_forall₂ hstands hi
    have hbefore := stop_le_trailing harranged (Option.mem_toList.mp hcomment) (List.mem_of_getElem? hdatum)
    have hproper := (proper_of_unowned harranged (Option.mem_toList.mp hcomment)).2.2
    have hcovers := (hparsed.nested.covers root hmem o ho).2
    rw [← hstop, hspan] at hcovers
    exact absurd (hproper.trans_le (hcovers.trans hbefore)) (lt_irrefl _)

/-- A node depends only on the text up to its end and on the next character: whatever else follows there, what says the
same over the same stretch is at its place, below nodes of the same forms. -/
theorem exists_beginning_of_node (h : parse depth serial source = .ok t) (hat : t.at? a = some o) :
    ∃ first rest, source.toList = first ++ rest ∧ (t.span o).stop = Position.zero.after first ∧
      ∀ {depth' serial' : Nat} {source' : String} {rest' : List Char} {u : Tree} {a' : Address} {n : Nat},
        source'.toList = first ++ rest' → (∀ c ∈ rest'.head?, c ∈ rest.head?) → parse depth' serial' source' = .ok u →
        u.at? a' = some n → u.span n = t.span o → u.table.content n = t.table.content o →
        a' = a ∧ Tree.SameForms t u a := by
  obtain ⟨tokens, items, htokens, hitems, hparsed⟩ := parsed_of_parse h
  have hb := hparsed.nested.built
  have hmem := hb.mem_nodes_iff.mpr ⟨a, hat⟩
  by_cases htag : t.table.tag? o = some .comment
  · obtain ⟨first, ⟨rest, hrest⟩, hfirst⟩ := ((spansNested_of_parse h).positions o hmem).2
    refine ⟨first, rest, hrest.symm, hfirst.symm, fun hsource' _ h' hat' hspan hcontent => ?_⟩
    obtain ⟨_, _, -, -, hparsed'⟩ := parsed_of_parse h'
    have hb' := hparsed'.nested.built
    obtain ⟨old, hold⟩ := hb.exists_node? hmem
    obtain ⟨new, hnew⟩ := hb'.exists_node? (hb'.mem_nodes_iff.mpr ⟨_, hat'⟩)
    have htag' := (Table.tag?_eq_of_content hb'.ordered hb.ordered hnew hold hcontent).trans htag
    exact at?_eq_of_comment h h' hrest.symm hsource' hat htag hfirst.symm hat' htag' hspan
  · obtain ⟨root, hroot, hbelow⟩ := exists_codeRoot h hat htag
    have hrootMem := hb.root_mem (List.mem_of_mem_filter hroot)
    obtain ⟨-, tokens₁, items₁, htokens₁, hitems₁, hstands⟩ := isForest_of_parse h
    cases htokens.symm.trans htokens₁
    cases hitems.symm.trans hitems₁
    obtain ⟨s, hs, hstop⟩ := hparsed.exists_span_of_stop hstands hrootMem hroot hbelow
    obtain ⟨first, rest, hsource, hfirst, hsame⟩ := exists_agreement htokens hitems hs
    rw [hstop] at hfirst hsame
    refine ⟨first, rest, hsource, hfirst, fun hsource' hhead h' hat' hspan hcontent => ?_⟩
    obtain ⟨_, _, -, -, hparsed'⟩ := parsed_of_parse h'
    obtain ⟨-, tokens', items', htokens', hitems', hstands'⟩ := isForest_of_parse h'
    have hfollowed := Tree.followed_of_agree hparsed.nested (codeRoots_prefix_of_parse h) (codeRoots_prefix_of_parse h')
      hstands hstands' (hsame hsource' hhead htokens' hitems') fun other hother hno =>
        (hparsed.nested.covers root hrootMem o hbelow).2.trans (stop_le_start_of_not_mem h hroot hother hno)
    rcases (hparsed.nested.start_le_stop hmem).lt_or_eq with hlt | hempty
    · exact hparsed.nested.eq_of_followed hparsed'.nested (inOrder_of_parse h') hfollowed hlt hat hat' hspan hcontent
    · exact hparsed.nested.eq_of_followed_vacant hparsed'.nested (fun root hroot => (hparsed.root_proper hroot).2.2)
        (fun root hroot => (hparsed'.root_proper hroot).2.2) hfollowed hempty hat hat' hspan hcontent

end Parsing

end Scheme

end StructuralEditor
