import StructuralEditor.Proofs.Scheme.Nesting
import StructuralEditor.Proofs.Scheme.Spacing

/-!
# The spans of a parsed tree

* `nodeSpans` : the stretches that nodes take of a text: those of its data, and that of the comment behind them;
* `Tree.notes` : the comments that stand for themselves, as roots;
* `Parsed`, `parsed_of_parse` : what a parsed tree has of the tokens and the items of its text;
* `Parsed.comment_eq` : the comment of a node, out of the comments of the text;
* `Tree.SpansNested`, `spansNested_of_parse` : the spans of a parsed tree are properly nested.
-/

namespace StructuralEditor

/-! ## Comments that stand for themselves -/

def Kind.noted? {α : Type} : Kind α → Option String
  | comment text => some text
  | _ => none

theorem Kind.noted?_map {α β : Type} (f : α → β) (m : Kind α) : (m.map f).noted? = m.noted? := by
  cases m <;> rfl

def Tree.note? (t : Tree) (id : Nat) : Option Comment :=
  (t.node? id).bind fun node => node.kind.noted?.map fun text => ⟨node.span, text⟩

def Tree.notes (t : Tree) : List Comment := t.roots.filterMap t.note?

namespace Scheme

open Item CommentPlan

def Draft.note? (d : Draft) : Option Comment := d.kind.noted?.map fun text => ⟨d.span, text⟩

theorem Draft.note?_of_tag {d : Draft} (h : d.kind.tag ≠ .comment) : d.note? = none := by
  obtain ⟨span, label, kind⟩ := d
  cases kind <;> first | rfl | exact absurd rfl h

theorem note?_of_spells {t : Tree} {id : Nat} {d : Draft} (h : t.table.Spells id d) : t.note? id = d.note? := by
  obtain ⟨node, m, hnode, hspan, hkind, hdkind, -⟩ := h.exists_get?
  rw [Tree.note?, Tree.node?, hnode, Option.bind_some, hspan, hkind, Draft.note?, hdkind, Kind.noted?_map,
    Kind.noted?_map]

/-! ## Trailing comments -/

/-- The stretches of the data of a text, and of the comments behind them. -/
def nodeSpans (items : List Item) : List Span := spans items ++ (ofItems items).2.toList.map Comment.span

section Trailing

variable {P : Position → Prop} {a b : Position} {items : List Item}

/-- Comments with a property make one comment with it, if it is one of both ends. -/
theorem proper_of_joinAll {cs : List Comment} {c : Comment} (h : joinAll cs = some c)
    (hcs : ∀ d ∈ cs, d.span.Proper P) : c.span.Proper P := by
  obtain ⟨⟨d, hd, hstart⟩, e, he, hstop⟩ := ends_of_joinAll h
  refine ⟨hstart ▸ (hcs d hd).1, hstop ▸ (hcs e he).2.1, ?_⟩
  have hcovers := covers_of_joinAll h d hd
  exact hcovers.1.trans_lt ((hcs d hd).2.2.trans_le hcovers.2)

variable (h : Arranged P a items b)

include h

theorem proper_of_unowned {c : Comment} (hc : (ofItems items).2 = some c) : c.span.Proper P := by
  rw [(holds_ofItems items).2] at hc
  refine proper_of_joinAll hc fun d hd => ?_
  exact (h.remarks_between none _ (mem_unowned_iff.mp hd)).1

theorem stop_le_trailing {c : Comment} (hc : (ofItems items).2 = some c) {d : Datum} (hd : d ∈ data items) :
    d.span.stop ≤ c.span.start := by
  rw [(holds_ofItems items).2] at hc
  obtain ⟨⟨e, he, hstart⟩, -⟩ := ends_of_joinAll hc
  rw [← hstart]
  exact (h.stop_le_of_ownerless (mem_unowned_iff.mp he)).2 d hd

theorem forall_nodeSpans_proper : ∀ s ∈ nodeSpans items, s.Proper P := by
  refine List.forall_mem_append.mpr ⟨fun s hs => (h.spans_between s hs).1, fun s hs => ?_⟩
  obtain ⟨c, hc, rfl⟩ := List.mem_map.mp hs
  exact proper_of_unowned h (Option.mem_toList.mp hc)

theorem laidRow_data : LaidRow (· ∈ nodeSpans items) (remarks none items) (data items) :=
  h.laid (fun s hs => (forall_nodeSpans_proper h s hs).2.2) (fun _ hs => List.mem_append_left _ hs) (by simp)

theorem exists_datum_of_mem_spans {s : Span} (hs : s ∈ spans items) :
    ∃ d ∈ data items, s ∈ d.spans ∧ d.span.Covers s := by
  obtain ⟨d, hd, hs⟩ := Datum.mem_spansOf_iff.mp hs
  exact ⟨d, hd, hs, ((laidRow_data h).laid d hd).covers s hs⟩

theorem find?_trailing {c : Comment} (hc : (ofItems items).2 = some c) {k : Position} (hk : c.span.start ≤ k) :
    (ofItems items).1.find? k = none := by
  rw [(holds_ofItems items).1.find, joinAll_eq_none_iff, List.eq_nil_iff_forall_not_mem]
  intro e he
  obtain ⟨o, hmem, rfl⟩ := mem_commentsAt_iff.mp he
  rcases h.owner_cases hmem with ho | ⟨-, hnone⟩
  · obtain ⟨d, hd, -, hcovers⟩ := exists_datum_of_mem_spans h ho
    have hstop := stop_le_trailing h hc hd
    have hlt := (h.spans_between o ho).1.2.2
    exact absurd (hlt.trans_le (hcovers.2.trans (hstop.trans hk))) (lt_irrefl _)
  · cases hnone

end Trailing

theorem notes_of_spelled {t : Tree} {items : List Item} {drafts : List Draft}
    (hdrafts : draftProgram items = .ok drafts)
    (h : Spelled t (drafts ++ (ofItems items).2.toList.map Draft.ofComment)) : t.notes = (ofItems items).2.toList := by
  obtain ⟨ps, -, rfl, hps⟩ := Datum.reads_of_draftAll _ hdrafts
  have hmap := map_eq_map_of_forall₂ (h.roots.imp fun _ _ => note?_of_spells)
  have hnotes : t.notes = (ps.map Prod.snd ++ (ofItems items).2.toList.map Draft.ofComment).filterMap Draft.note? := by
    rw [Tree.notes, ← Function.id_comp t.note?, ← List.filterMap_map, hmap, List.filterMap_map, Function.id_comp]
  rw [hnotes, List.filterMap_append, List.filterMap_eq_nil_iff.mpr, List.nil_append, List.filterMap_map]
  · exact List.filterMap_some
  · intro d hd
    obtain ⟨p, hp, rfl⟩ := List.mem_map.mp hd
    exact Draft.note?_of_tag (hps p hp).tag_ne_comment

/-! ## Parsed trees -/

/-- What a parsed tree has of the tokens and the items of its text. -/
structure Parsed (tokens : List Token) (items : List Item) (t : Tree) : Prop where
  apart : tokens.Pairwise fun s s' => s.span.stop ≤ s'.span.start
  proper : ∀ token ∈ tokens, token.span.start < token.span.stop
  arranged : ∃ a b, Arranged (Token.Bounds tokens) a items b
  nested : t.Nested (· ∈ nodeSpans items) (remarks none items)
  roots : t.roots.map t.span = (data items).map Datum.span ++ (ofItems items).2.toList.map Comment.span
  notes : t.notes = (ofItems items).2.toList
  served : ∃ p, p.table = t.table ∧ Served (ofItems items).1 t.roots p
  whole : ∀ id < t.table.size, id ∈ t.nodes
  rising : t.roots.Pairwise fun a b => ∀ x ∈ t.descendants b, a < x

/-- The drafts of a text are laid out in a row, with that of the comments at the end. -/
theorem laid_drafts {P : Position → Prop} {a b : Position} {items : List Item} {drafts : List Draft}
    (h : Arranged P a items b) (hdrafts : draftProgram items = .ok drafts) :
    (∀ d ∈ drafts ++ (ofItems items).2.toList.map Draft.ofComment, d.Laid (· ∈ nodeSpans items) (remarks none items)) ∧
    (drafts ++ (ofItems items).2.toList.map Draft.ofComment).map Draft.span =
      (data items).map Datum.span ++ (ofItems items).2.toList.map Comment.span := by
  obtain ⟨ps, hfst, rfl, hps⟩ := Datum.reads_of_draftAll _ hdrafts
  have hproper : ∀ s, s ∈ nodeSpans items → s.start < s.stop := fun s hs => (forall_nodeSpans_proper h s hs).2.2
  have hmatches : ∀ p ∈ ps, Matches (· ∈ nodeSpans items) (remarks none items) p := by
    intro p hp
    refine (hps p hp).laid hproper ((laidRow_data h).laid p.1 ?_)
    rw [← hfst]
    exact List.mem_map_of_mem hp
  refine ⟨List.forall_mem_append.mpr ⟨forall_laid_of_matches hmatches, fun d hd => ?_⟩, ?_⟩
  · obtain ⟨c, hc, rfl⟩ := List.mem_map.mp hd
    exact Draft.laid_leaf rfl (List.mem_append_right _ (List.mem_map_of_mem hc))
  · rw [List.map_append, map_span_of_matches hmatches, hfst, List.map_map]
    rfl

theorem pairwise_rootSpans {P : Position → Prop} {a b : Position} {items : List Item} (h : Arranged P a items b) :
    ((data items).map Datum.span ++ (ofItems items).2.toList.map Comment.span).Pairwise
      fun s s' => s.stop ≤ s'.start := by
  refine List.pairwise_append.mpr ⟨?_, ?_, fun s hs s' hs' => ?_⟩
  · exact List.pairwise_map.mpr ((laidRow_data h).apart.imp Precedes.apart)
  · cases (ofItems items).2 with
    | none => exact .nil
    | some c => exact List.pairwise_singleton _ _
  · obtain ⟨d, hd, rfl⟩ := List.mem_map.mp hs
    obtain ⟨c, hc, rfl⟩ := List.mem_map.mp hs'
    exact stop_le_trailing h (Option.mem_toList.mp hc) hd

theorem Spelled.mem_nodes {t : Tree} {drafts : List Draft} (h : Spelled t drafts) (hb : t.Built) {id : Nat}
    (hid : id < t.table.size) : id ∈ t.nodes := by
  -- Every index is a root or a child, and parents are younger, so the induction goes down from the youngest.
  induction hn : t.table.size - id using Nat.strongRecOn generalizing id with
  | ind n ih =>
    rcases List.mem_append.mp (h.listed.mem_iff.mpr (List.mem_range.mpr hid)) with hroot | hlisted
    · exact hb.root_mem hroot
    · obtain ⟨node, hnode, hchild⟩ := List.mem_flatMap.mp hlisted
      obtain ⟨above, habove, rfl⟩ := Array.getElem_of_mem (Array.mem_toList_iff.mp hnode)
      have hget : t.table.get? above = some t.table.nodes[above] := Array.getElem?_eq_getElem habove
      have hmem : id ∈ t.children above := by
        rw [Tree.children, Table.children, hget]
        exact hchild
      have hlt := hb.ordered above id hmem
      have hsize : above < t.table.size := habove
      exact hb.child_mem (ih (t.table.size - above) (by omega) hsize rfl) hmem

theorem parsed_of_parse {depth serial : Nat} {source : String} {t : Tree} (h : parse depth serial source = .ok t) :
    ∃ tokens items, Token.tokenize source = .ok tokens ∧ Item.read tokens = .ok items ∧ Parsed tokens items t := by
  obtain ⟨tokens, items, drafts, htokens, hitems, hdrafts, rfl⟩ := parse_eq_ok_iff.mp h
  have htiled := Token.tiled_of_scans (Token.scan_eq_ok_iff.mp htokens)
  have harranged := Item.arranged_of_parts htokens hitems
  have hspelled := spelled_plantProgram depth serial items drafts
  obtain ⟨hlaid, hspans⟩ := laid_drafts harranged hdrafts
  have hrow := pairwise_rootSpans harranged
  rw [← hspans, List.pairwise_map] at hrow
  have hnested := Tree.nested_of_spelled hspelled
    (fun s hs => (forall_nodeSpans_proper harranged s hs).2.2) hlaid hrow
  refine ⟨tokens, items, htokens, hitems, htiled.apart, fun token hmem => (htiled.positions token hmem).2.2,
    ⟨_, _, harranged⟩, hnested, ?_, notes_of_spelled hdrafts hspelled, ?_, fun id => hspelled.mem_nodes hnested.built,
    roots_pairwise_lt_plantProgram depth serial items drafts⟩
  · rw [← hspans]
    exact map_eq_map_of_forall₂ (hspelled.roots.imp fun _ _ => Tree.span_of_spells)
  · refine served_plantProgram depth serial items drafts fun c hc => ⟨?_, fun k hk _ => find?_trailing harranged hc hk⟩
    exact (proper_of_unowned harranged hc).2.2.le

namespace Parsed

variable {tokens : List Token} {items : List Item} {t : Tree} {id : Nat} {node : Node}

/-- The comment of a node is made of the comments that belong where the node receives them. -/
theorem comment_eq (h : Parsed tokens items t) (hnode : t.node? id = some node) :
    ∃ ks : List Position, ks.Nodup ∧
      (∀ k, k ∈ ks ↔ (∃ c, Belongs (remarks none items) k c) ∧ t.table.Receives t.roots id k) ∧
      node.comment = joinAll (ks.flatMap (commentsAt (remarks none items))) := by
  obtain ⟨p, htable, hserved⟩ := h.served
  obtain ⟨ks, hks, hmem, hjoin⟩ := hserved.taken (show p.table.get? id = some node from htable ▸ hnode)
  have hfind : (ofItems items).1.find? = fun k => joinAll (commentsAt (remarks none items) k) :=
    funext (holds_ofItems items).1.find
  refine ⟨ks, hks, fun k => ?_, ?_⟩
  · rw [hmem, htable, hfind]
    refine and_congr_left fun _ => ?_
    rw [Option.isSome_iff_ne_none, Ne, joinAll_eq_none_iff, List.eq_nil_iff_forall_not_mem, not_forall]
    simp only [not_not, mem_commentsAt_iff]
  · rw [hjoin, hfind, List.flatMap_def, ← joinAll_flatten, List.filterMap_map]
    rfl

end Parsed

/-! ## Nested spans -/

end Scheme

open Scheme

namespace Tree

variable {t : Tree} {id : Nat}

/-- The spans of the tree are properly nested in the text: all ends are positions of it, no span is empty but that of
the parameters of a function that has none, and nodes stand in order within each other. -/
structure SpansNested (b : Buffer) (t : Tree) : Prop where
  positions : ∀ id ∈ t.nodes, b.HasPosition (t.span id).start ∧ b.HasPosition (t.span id).stop
  comments : ∀ id ∈ t.nodes, ∀ node ∈ t.node? id, ∀ comment ∈ node.comment, comment.span.Proper b.HasPosition
  filled : ∀ id ∈ t.nodes, (t.span id).start < (t.span id).stop ∨ (t.span id).start = (t.span id).stop ∧
    ∃ above ∈ t.nodes, ∃ node name body, t.node? above = some node ∧
      node.kind = .functionDefinition name id body ∧ t.children id = []
  inside : ∀ id ∈ t.nodes, ∀ child ∈ t.children id, (t.span id).Covers (t.span child)
  siblings : ∀ id ∈ t.nodes, (t.children id).Pairwise fun a b => (t.span a).stop ≤ (t.span b).start
  roots : t.roots.Pairwise fun a b => (t.span a).stop ≤ (t.span b).start
  starts : t.nodes.Pairwise fun a b => (t.span a).start ≤ (t.span b).start

namespace Nested

variable {S : Span → Prop} {rs : List Remark} (h : t.Nested S rs)

include h

theorem forall_ends {P : Position → Prop} (hP : ∀ s, S s → P s.start ∧ P s.stop) :
    ∀ id ∈ t.nodes, P (t.span id).start ∧ P (t.span id).stop := by
  refine h.built.below_induction fun id hid ih => ?_
  cases h.laid id hid with
  | plain here _ _ => exact hP _ here
  | gathered first rest hchildren hstart hstop _ _ =>
    obtain ⟨last, hlast, hstop⟩ := hstop
    rw [← hstart, ← hstop]
    exact ⟨(ih first (hchildren ▸ List.mem_cons_self)).1, (ih last hlast).2⟩
  | vacant s here _ hspan _ _ _ _ =>
    rw [hspan]
    exact ⟨(hP s here).2, (hP s here).2⟩

/-- Only the parameters of a function that has none take no stretch. -/
theorem filled_or_parameters (hroots : ∀ root ∈ t.roots, (t.span root).start < (t.span root).stop) :
    ∀ id ∈ t.nodes, (t.span id).start < (t.span id).stop ∨ (t.span id).start = (t.span id).stop ∧
      ∃ above ∈ t.nodes, ∃ node name body, t.node? above = some node ∧
        node.kind = .functionDefinition name id body ∧ t.children id = [] := by
  refine h.built.nodes_induction (fun root hroot => .inl (hroots root hroot)) fun id hid _ child hchild => ?_
  cases h.laid id hid with
  | plain _ _ filled =>
    rcases filled with filled | ⟨node, name, parameters, body, hnode, hkind, hname, hbody, -⟩
    · exact .inl (filled child hchild)
    · have hmem : child = name ∨ child = parameters ∨ child = body := by
        rw [children_of_node? hnode, hkind] at hchild
        simpa [Kind.children, Kind.fields, Field.nodes] using hchild
      rcases hmem with rfl | rfl | rfl
      · exact .inl hname
      · rcases h.filled_or_vacant (h.built.child_mem hid hchild) with hlt | ⟨s, -, hspan, hnil⟩
        · exact .inl hlt
        · exact .inr ⟨by rw [hspan]; rfl, id, hid, node, name, body, hnode, hkind, hnil⟩
      · exact .inl hbody
  | gathered _ _ _ _ _ _ filled => exact .inl (filled child hchild)
  | vacant _ _ _ _ _ _ hnode hkind =>
    rw [children_of_node? hnode, hkind] at hchild
    cases hchild

end Nested

end Tree

namespace Scheme

open Item CommentPlan

namespace Parsed

variable {tokens : List Token} {items : List Item} {t : Tree} {id : Nat} {node : Node}

theorem root_proper (h : Parsed tokens items t) {root : Nat} (hroot : root ∈ t.roots) :
    (t.span root).Proper (Token.Bounds tokens) := by
  obtain ⟨a, b, harranged⟩ := h.arranged
  have hmem : t.span root ∈ t.roots.map t.span := List.mem_map_of_mem hroot
  rw [h.roots] at hmem
  refine forall_nodeSpans_proper harranged _ ?_
  rcases List.mem_append.mp hmem with hmem | hmem
  · obtain ⟨d, hd, heq⟩ := List.mem_map.mp hmem
    exact List.mem_append_left _ (heq ▸ span_mem_spans hd)
  · exact List.mem_append_right _ hmem

theorem comment_proper (h : Parsed tokens items t) (hnode : t.node? id = some node) {comment : Comment}
    (hcomment : node.comment = some comment) : comment.span.Proper (Token.Bounds tokens) := by
  obtain ⟨a, b, harranged⟩ := h.arranged
  obtain ⟨ks, -, -, hjoin⟩ := h.comment_eq hnode
  refine proper_of_joinAll (hjoin.symm.trans hcomment) fun c hc => ?_
  obtain ⟨k, -, hc⟩ := List.mem_flatMap.mp hc
  obtain ⟨o, hmem, -⟩ := mem_commentsAt_iff.mp hc
  exact (harranged.remarks_between none _ hmem).1

end Parsed

/-- The spans of a parsed tree are properly nested in its text. -/
theorem spansNested_of_parse {depth serial : Nat} {source : String} {t : Tree}
    (h : parse depth serial source = .ok t) : t.SpansNested ⟨source⟩ := by
  obtain ⟨tokens, items, htokens, -, hparsed⟩ := parsed_of_parse h
  obtain ⟨a, b, harranged⟩ := hparsed.arranged
  have hposition : ∀ {s : Span}, s.Proper (Token.Bounds tokens) → s.Proper (⟨source⟩ : Buffer).HasPosition := by
    intro s hs
    exact ⟨Token.hasPosition_of_bounds htokens hs.1, Token.hasPosition_of_bounds htokens hs.2.1, hs.2.2⟩
  refine ⟨?_, fun id _ node hnode comment hcomment => ?_, ?_, fun id hid child => hparsed.nested.covers_child hid,
    fun id hid => (hparsed.nested.apart id hid).imp Apart.apart, hparsed.nested.roots, hparsed.nested.pairwise_start⟩
  · refine hparsed.nested.forall_ends fun s hs => ?_
    have hproper := hposition (forall_nodeSpans_proper harranged s hs)
    exact ⟨hproper.1, hproper.2.1⟩
  · exact hposition (hparsed.comment_proper hnode hcomment)
  · exact hparsed.nested.filled_or_parameters fun root hroot => (hparsed.root_proper hroot).2.2

theorem spansNested_of_parse_thunk : ∃ t, parse 1 0 "(define (f) ;a\n (when x ;b\n y)) ;c" = .ok t ∧
    (∃ id ∈ t.nodes, t.span id = Span.empty ⟨0, 10⟩) ∧
    t.SpansNested ⟨"(define (f) ;a\n (when x ;b\n y)) ;c"⟩ := by
  have hok : ∃ t ∈ (parse 1 0 "(define (f) ;a\n (when x ;b\n y)) ;c").toOption,
      ∃ id ∈ t.nodes, t.span id = Span.empty ⟨0, 10⟩ := by decide +kernel
  obtain ⟨t, ht, hempty⟩ := hok
  rw [mem_toOption_iff] at ht
  exact ⟨t, ht, hempty, spansNested_of_parse ht⟩

end Scheme

end StructuralEditor
