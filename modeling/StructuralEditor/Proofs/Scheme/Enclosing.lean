import StructuralEditor.Proofs.Scheme.Cursor

/-!
# Cursors in code

In a text without comments a cursor touches the nodes that span it. The first of two neighbours that it touches is taken
on the way down, but a cursor strictly inside a node touches no neighbour before that.

* `Parsed.touches_eq_contains` : what a cursor touches if there are no comments;
* `Tree.Nested.innermost_mem_descendants` : the way down goes through every node that has the cursor strictly inside;
* `Tree.InnermostAt`, `innermostAt_of_parse` : a cursor finds the innermost node around it.
-/

namespace StructuralEditor

open Scheme

namespace Tree

/-- The node `n` is the innermost one around the cursor: it spans the cursor and no child of it does, and every node
that has the cursor strictly inside is the node itself or above it. -/
structure InnermostAt (t : Tree) (p : Position) (n : Nat) : Prop where
  mem : n ∈ t.nodes
  spans : (t.span n).contains p = true
  last : ∀ child ∈ t.children n, (t.span child).contains p = false
  within : ∀ m ∈ t.nodes, (t.span m).start < p → p < (t.span m).stop → m = n ∨ t.isAncestor m n = true

namespace Nested

variable {t : Tree} {S : Span → Prop} {rs : List Remark} (h : t.Nested S rs) {p : Position} {id m : Nat}
  (htouches : ∀ id ∈ t.nodes, t.touches p id = (t.span id).contains p) (hstart : (t.span m).start < p)
  (hstop : p < (t.span m).stop)

include h htouches hstart hstop

/-- Of nodes in a row, the first one that a cursor touches is the one that it is strictly inside of. -/
theorem find?_around {ids : List Nat} (hids : ∀ id ∈ ids, id ∈ t.nodes)
    (hrow : ids.Pairwise fun a b => (t.span a).stop ≤ (t.span b).start) (hid : id ∈ ids) (hm : m ∈ t.descendants id) :
    ids.find? (t.touches p) = some id := by
  have hcovers := h.covers id (hids id hid) m hm
  have hlow : (t.span id).start < p := hcovers.1.trans_lt hstart
  have hhigh : p < (t.span id).stop := hstop.trans_le hcovers.2
  refine find?_eq_some_of_first hrow hid ?_ fun other hother hbefore htouch => ?_
  · rw [htouches id (hids id hid)]
    exact Span.contains_iff.mpr ⟨hlow.le, hhigh.le, (hlow.trans hhigh).ne⟩
  · rw [htouches other (hids other hother)] at htouch
    obtain ⟨-, hle, -⟩ := Span.contains_iff.mp htouch
    order

/-- The way down goes through every node that has the cursor strictly inside. -/
theorem innermost_mem_descendants : ∀ id ∈ t.nodes, m ∈ t.descendants id → t.innermost p id ∈ t.descendants m := by
  refine h.built.below_induction fun id hid ih hm => ?_
  rcases (h.built.mem_descendants_iff hid).mp hm with rfl | ⟨child, hchild, hm⟩
  · exact (h.built.innermost_spec m hid).1
  · have hrow := (h.apart id hid).imp Apart.apart
    have hfind := h.find?_around htouches hstart hstop (fun child => h.built.child_mem hid) hrow hchild hm
    rw [h.built.innermost_of_find? hfind]
    exact ih child hchild hm

theorem containing?_mem_descendants (hm : m ∈ t.nodes) : ∃ n ∈ t.descendants m, t.containing? p = some n := by
  obtain ⟨root, hroot, hbelow⟩ := h.built.exists_root hm
  have hfind := h.find?_around htouches hstart hstop (fun root => h.built.root_mem) h.roots hroot hbelow
  refine ⟨t.innermost p root, ?_, by rw [containing?, hfind, Option.map_some]⟩
  exact h.innermost_mem_descendants htouches hstart hstop root (h.built.root_mem hroot) hbelow

end Nested

end Tree

namespace Scheme

open Item

theorem Parsed.touches_eq_contains {tokens : List Token} {items : List Item} {t : Tree} (h : Parsed tokens items t)
    (hfree : remarks none items = []) {p : Position} {id : Nat} (hid : id ∈ t.nodes) :
    t.touches p id = (t.span id).contains p := by
  rw [Bool.eq_iff_iff]
  constructor
  · intro htouch
    rcases h.touches_cases hid htouch with hspan | ⟨d, hd, -⟩
    · exact hspan
    · obtain ⟨o, hmem, -⟩ := Tree.mem_kept_iff.mp hd
      rw [hfree] at hmem
      cases hmem
  · exact h.nested.touches_of_contains hid

/-- In a text without comments a cursor finds the innermost node around it, and none only where no root spans it. -/
theorem innermostAt_of_parse {depth serial : Nat} {source : String} {t : Tree} {tokens : List Token}
    (h : parse depth serial source = .ok t) (htokens : Token.tokenize source = .ok tokens)
    (hfree : Token.comments tokens = []) (p : Position) :
    (t.containing? p = none ↔ ∀ root ∈ t.roots, (t.span root).contains p = false) ∧
      ∀ n, t.containing? p = some n → t.InnermostAt p n := by
  obtain ⟨tokens', items, htokens', hitems, hparsed⟩ := parsed_of_parse h
  obtain rfl : tokens' = tokens := Except.ok.inj (htokens'.symm.trans htokens)
  have hremarks : remarks none items = [] := by
    have hcomments := comments_of_nested (read_eq_ok_iff.mp hitems) none
    rw [hfree] at hcomments
    exact List.map_eq_nil_iff.mp hcomments
  have hb := hparsed.nested.built
  have hu := hparsed.nested.unshared
  have htouches : ∀ id ∈ t.nodes, t.touches p id = (t.span id).contains p :=
    fun id hid => hparsed.touches_eq_contains hremarks hid
  constructor
  · rw [Tree.containing?_eq_none_iff]
    exact forall₂_congr fun root hroot => by rw [htouches root (hb.root_mem hroot)]
  · intro n hn
    have hmem := hb.mem_of_containing? hn
    refine ⟨hmem, ?_, fun child hchild => ?_, fun m hm hstart hstop => ?_⟩
    · rw [← htouches n hmem]
      exact Tree.touches_of_containing? hb hu hn hmem (hb.self_mem_descendants hmem)
    · rw [← htouches child (hb.child_mem hmem hchild)]
      exact Bool.eq_false_of_not_eq_true (hb.not_touches_child_of_containing? hn child hchild)
    · obtain ⟨n', hbelow, hn'⟩ := hparsed.nested.containing?_mem_descendants htouches hstart hstop hm
      obtain rfl : n' = n := Option.some_inj.mp (hn'.symm.trans hn)
      by_cases heq : m = n'
      · exact .inl heq
      · exact .inr ((Tree.isAncestor_iff_above hb hu hm hmem).mpr ⟨hm, heq, hbelow⟩)

/-- A cursor between two neighbours in the body of a guarded expression finds the first of them. -/
theorem innermostAt_of_parse_neighbours : ∃ t tokens n, parse 1 0 "(define (f) (when p (g)x))" = .ok t ∧
    Token.tokenize "(define (f) (when p (g)x))" = .ok tokens ∧ Token.comments tokens = [] ∧
    t.containing? ⟨0, 23⟩ = some n ∧ t.span n = ⟨⟨0, 20⟩, ⟨0, 23⟩⟩ ∧ t.InnermostAt ⟨0, 23⟩ n ∧
    (t.span 6).start < ⟨0, 23⟩ ∧ ⟨0, 23⟩ < (t.span 6).stop ∧ t.isAncestor 6 n = true := by
  have hok : ∃ t ∈ (parse 1 0 "(define (f) (when p (g)x))").toOption,
      ∃ tokens ∈ (Token.tokenize "(define (f) (when p (g)x))").toOption, Token.comments tokens = [] ∧
        t.containing? ⟨0, 23⟩ = some 4 ∧ t.span 4 = ⟨⟨0, 20⟩, ⟨0, 23⟩⟩ ∧ 6 ∈ t.nodes ∧
        (t.span 6).start < ⟨0, 23⟩ ∧ ⟨0, 23⟩ < (t.span 6).stop := by decide +kernel
  obtain ⟨t, ht, tokens, htokens, hfree, hfound, hspan, hmem, hstart, hstop⟩ := hok
  rw [mem_toOption_iff] at ht htokens
  have hinnermost := (innermostAt_of_parse ht htokens hfree ⟨0, 23⟩).2 4 hfound
  rcases hinnermost.within 6 hmem hstart hstop with heq | habove
  · cases heq
  · exact ⟨t, tokens, 4, ht, htokens, hfree, hfound, hspan, hinnermost, hstart, hstop, habove⟩

end Scheme

end StructuralEditor
