import StructuralEditor.Proofs.Scheme.ParsedSpans

/-!
# The forest of a parsed text

* `Tree.StandsFor` : the subtree of a node is the draft of a datum;
* `Tree.IsForest` : all nodes of the table are in the tree, each at one place, and children are older than parents;
* `Spelled.isForest`, `standsFor_codeRoots` : so it is with planted drafts, whose roots stand for the data in order;
* `isForest_of_parse` : so it is with every parsed tree.
-/

namespace StructuralEditor

open Scheme

namespace Scheme

theorem Reads.span_eq {slot : Slot} {datum : Datum} {d : Draft} (h : Reads slot datum d) : d.span = datum.span := by
  cases h with
  | atom text span => exact Draft.span_ofAtom text span
  | _ => rfl

end Scheme

namespace Tree

/-- The subtree of the node is the draft of the datum, and takes the same stretch of text. -/
def StandsFor (t : Tree) (id : Nat) (datum : Datum) : Prop :=
  t.span id = datum.span ∧ ∃ d, datum.draft = .ok d ∧ t.table.Spells id d

theorem standsFor_of_spells {t : Tree} {id : Nat} {datum : Datum} {d : Draft} (h : t.table.Spells id d)
    (hreads : Reads .expression datum d) : t.StandsFor id datum :=
  ⟨(span_of_spells h).trans hreads.span_eq, d, Datum.makes_of_reads hreads, h⟩

/-- The tree is a forest that all nodes of its table are in: each of them is reached from the roots in one way, and is
listed once, as a root or as a child of one parent that is younger. -/
structure IsForest (t : Tree) : Prop where
  reached : ∀ id < t.table.size, ∃! a, t.at? a = some id
  nodes : t.nodes.Perm (List.range t.table.size)
  size : t.size = t.table.size
  listed : (t.roots ++ t.table.listed).Perm (List.range t.table.size)
  older : ∀ id, ∀ child ∈ t.children id, child < id

end Tree

namespace Scheme

namespace Spelled

variable {t : Tree} {drafts : List Draft} (h : Spelled t drafts)

include h

theorem mem_nodes_iff {id : Nat} : id ∈ t.nodes ↔ id < t.table.size := by
  refine ⟨fun hid => ?_, h.mem_nodes h.built⟩
  exact Table.exists_get?_iff_lt.mp (h.built.exists_node? hid)

theorem nodes_perm : t.nodes.Perm (List.range t.table.size) := by
  refine (List.perm_ext_iff_of_nodup (h.built.nodup_nodes h.unshared) List.nodup_range).mpr fun id => ?_
  rw [h.mem_nodes_iff, List.mem_range]

theorem isForest : t.IsForest where
  reached := by
    intro id hid
    obtain ⟨a, ha⟩ := h.built.mem_nodes_iff.mp (h.mem_nodes_iff.mpr hid)
    exact ⟨a, ha, fun a' ha' => h.unshared a' a id ha' ha⟩
  nodes := h.nodes_perm
  size := by
    have hlength := h.nodes_perm.length_eq
    rwa [Tree.nodes, Array.length_toList, List.length_range] at hlength
  listed := h.listed
  older := h.ordered

end Spelled

/-- The roots of a planted program that are no comments stand for its data, one for one and in order. -/
theorem standsFor_codeRoots {items : List Item} {drafts : List Draft} (h : draftProgram items = .ok drafts)
    (depth serial : Nat) :
    List.Forall₂ (plantProgram depth serial items drafts).StandsFor (plantProgram depth serial items drafts).codeRoots
      (Item.data items) := by
  obtain ⟨ps, hdata, rfl, hps⟩ := Datum.reads_of_draftAll _ h
  have hroots := spells_codeRoots h depth serial
  obtain ⟨hsame, hspells⟩ := List.forall₂_iff_zip.mp (List.forall₂_map_right_iff.mp hroots)
  rw [← hdata, List.forall₂_map_right_iff]
  refine List.forall₂_iff_zip.mpr ⟨hsame, fun hzip => ?_⟩
  exact Tree.standsFor_of_spells (hspells hzip) (hps _ (List.of_mem_zip hzip).2)

/-- A parsed tree is a forest of all nodes that were made for it, each of them there once and younger than its
children; its roots that are no comments stand for the top-level data of the text, one for one and in order. -/
theorem isForest_of_parse {depth serial : Nat} {source : String} {t : Tree} (h : parse depth serial source = .ok t) :
    t.IsForest ∧ ∃ tokens items, Token.tokenize source = .ok tokens ∧ Item.read tokens = .ok items ∧
      List.Forall₂ t.StandsFor t.codeRoots (Item.data items) := by
  obtain ⟨tokens, items, drafts, htokens, hitems, hdrafts, rfl⟩ := parse_eq_ok_iff.mp h
  exact ⟨(spelled_plantProgram depth serial items drafts).isForest, tokens, items, htokens, hitems,
    standsFor_codeRoots hdrafts depth serial⟩

theorem isForest_of_parse_definition : ∃ t, parse 1 0 "(define (f x) ;a\n (when x [y])) z ;c" = .ok t ∧
    t.table.size = 11 ∧ t.roots.length = 3 ∧ t.IsForest ∧ ∃ tokens items,
      Token.tokenize "(define (f x) ;a\n (when x [y])) z ;c" = .ok tokens ∧ Item.read tokens = .ok items ∧
      List.Forall₂ t.StandsFor t.codeRoots (Item.data items) := by
  have hok : ∃ t ∈ (parse 1 0 "(define (f x) ;a\n (when x [y])) z ;c").toOption,
      t.table.size = 11 ∧ t.roots.length = 3 := by decide +kernel
  obtain ⟨t, ht, hsize, hroots⟩ := hok
  rw [mem_toOption_iff] at ht
  exact ⟨t, ht, hsize, hroots, isForest_of_parse ht⟩

end Scheme

end StructuralEditor
