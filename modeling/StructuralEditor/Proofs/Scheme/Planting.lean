import Mathlib.Data.List.Perm.Basic
import Mathlib.Data.List.Range
import StructuralEditor.Proofs.Kind.Traversal
import StructuralEditor.Proofs.Outcome
import StructuralEditor.Proofs.Tree.Address
import StructuralEditor.Scheme.Program

/-!
# What planting leaves in the table

* `Table.bare` : the nodes of a table without their comments, which planting only adds to;
* `Table.Spells` : the subtree of a node is a draft, node by node;
* `Scheme.Planted`, `Scheme.planted_plant` : a planted draft is spelled by the table, its nodes are younger than
  what was there, and each but the outermost is a child once;
* `Scheme.Spelled`, `Scheme.spelled_parse` : so it is with the roots of a parsed tree;
* `Scheme.unshared_of_parse` : no node of a parsed tree is shared.
-/

namespace StructuralEditor

open Scheme (Draft Planting)

theorem Scheme.Draft.children_induction {P : Draft → Prop}
    (h : ∀ span label kind, (∀ child ∈ kind.children, P child) → P (.mk span label kind)) : ∀ d, P d
  | .mk span label kind => h span label kind fun child _ => children_induction h child
termination_by d => sizeOf d
decreasing_by
  rename_i hm
  have := Kind.sizeOf_lt_of_mem hm
  simp only [Draft.mk.sizeOf_spec]
  omega

/-! ## Tables without comments -/

def Node.bare (node : Node) : Node := { node with comment := none }

namespace Table

variable {t u : Table}

def bare (t : Table) : List Node := t.nodes.toList.map Node.bare

theorem length_bare (t : Table) : t.bare.length = t.size := by
  simp [bare, size]

theorem getElem?_bare (t : Table) (id : Nat) : t.bare[id]? = (t.get? id).map Node.bare := by
  simp [bare, get?]

theorem bare_push (t : Table) (node : Node) : (t.push node).bare = t.bare ++ [node.bare] := by
  simp [bare, push]

theorem bare_modify (t : Table) (id : Nat) {f : Node → Node} (hf : ∀ node, (f node).bare = node.bare) :
    (t.modify id f).bare = t.bare := by
  refine List.ext_getElem? fun n => ?_
  rw [getElem?_bare, getElem?_bare, get?_modify]
  split
  · rw [Option.map_map]
    exact congrArg (Option.map · _) (funext hf)
  · rfl

theorem listed_eq_of_bare (t : Table) : t.listed = t.bare.flatMap (·.kind.children) := by
  rw [listed, bare, List.flatMap_map]
  rfl

theorem listed_push (t : Table) (node : Node) : (t.push node).listed = t.listed ++ node.kind.children := by
  simp [listed, push]

theorem children_eq_of_bare (id : Nat) :
    t.children id = ((t.bare[id]?).map fun node => node.kind.children).getD [] := by
  rw [getElem?_bare, children]
  cases t.get? id <;> rfl

/-- The subtree of a node is a draft: `m` has its children together with their indices. -/
inductive Spells (t : Table) : Nat → Draft → Prop
  | mk {id : Nat} {node : Node} {span : Span} {label : String} {m : Kind (Draft × Nat)}
    (here : t.get? id = some node) (hspan : node.span = span) (hkind : node.kind = m.map Prod.snd)
    (hoptions : node.options = Options.labelled label)
    (older : ∀ p ∈ m.children, p.2 < id) (below : ∀ p ∈ m.children, Spells t p.2 p.1) :
    Spells t id (.mk span label (m.map Prod.fst))

/-- A table spells what another spells, if its nodes have the same spans, forms, children and labels. -/
theorem Spells.mono {id : Nat} {d : Draft} (h : t.Spells id d)
    (hmono : ∀ id node, t.get? id = some node → ∃ node', u.get? id = some node' ∧ node'.span = node.span ∧
      node'.kind = node.kind ∧ node'.options = node.options) : u.Spells id d := by
  induction h with
  | mk here hspan hkind hoptions older _ ih =>
    obtain ⟨node', here', hspan', hkind', hoptions'⟩ := hmono _ _ here
    exact .mk here' (hspan'.trans hspan) (hkind'.trans hkind) (hoptions'.trans hoptions) older ih

theorem Spells.grow {id : Nat} {d : Draft} (h : t.Spells id d) (hgrow : t.bare <+: u.bare) : u.Spells id d := by
  refine h.mono fun id node hnode => ?_
  obtain ⟨rest, hrest⟩ := hgrow
  have hbare : u.bare[id]? = some node.bare := by
    have ht : t.bare[id]? = some node.bare := by rw [getElem?_bare, hnode, Option.map_some]
    rw [← hrest, List.getElem?_append_left (List.getElem?_eq_some_iff.mp ht).1, ht]
  rw [getElem?_bare] at hbare
  obtain ⟨node', hnode', hsame⟩ := Option.map_eq_some_iff.mp hbare
  have hspan := congrArg Node.span hsame
  have hkind := congrArg Node.kind hsame
  have hoptions := congrArg Node.options hsame
  exact ⟨node', hnode', hspan, hkind, hoptions⟩

theorem Spells.lt_size {id : Nat} {d : Draft} (h : t.Spells id d) : id < t.size := by
  cases h with
  | mk here _ _ _ _ _ => exact (Array.getElem?_eq_some_iff.mp here).1

theorem Spells.child {id child : Nat} {d : Draft} (h : t.Spells id d) {s : Step} (hs : t.child? id s = some child) :
    ∃ c, d.kind.child? s = some c ∧ t.Spells child c := by
  cases h with
  | @mk id node span label m here _ hkind _ _ below =>
    rw [child?_of_get? here, hkind, Kind.child?_map] at hs
    obtain ⟨p, hp, rfl⟩ := Option.map_eq_some_iff.mp hs
    refine ⟨p.1, ?_, below p (Kind.mem_children_iff.mpr ⟨s, hp⟩)⟩
    show (m.map Prod.fst).child? s = some p.1
    rw [Kind.child?_map, hp, Option.map_some]

theorem Spells.tag {id : Nat} {d : Draft} (h : t.Spells id d) : t.tag? id = some d.kind.tag := by
  cases h with
  | @mk id node span label m here _ hkind _ _ _ =>
    show (t.get? id).map (·.kind.tag) = some (m.map Prod.fst).tag
    rw [here, Option.map_some, hkind, Kind.tag_map, Kind.tag_map]

theorem Spells.options {id : Nat} {d : Draft} {node : Node} (h : t.Spells id d) (hnode : t.get? id = some node) :
    node.options = Options.labelled d.label := by
  cases h with
  | mk here _ _ hoptions _ _ =>
    cases here.symm.trans hnode
    exact hoptions

theorem Spells.content (ho : t.Ordered) {id : Nat} {d : Draft} (h : t.Spells id d) : t.content id = d.content := by
  induction h with
  | mk here _ hkind _ _ _ ih =>
    rw [content_of_get? ho here, hkind, Draft.content_mk, Kind.map_map, Kind.map_map]
    exact congrArg Content.mk (Kind.map_congr ih)

end Table

/-! ## Planting -/

theorem range'_split {a b c : Nat} (hab : a ≤ b) (hbc : b ≤ c) :
    List.range' a (c - a) = List.range' a (b - a) ++ List.range' b (c - b) := by
  obtain ⟨m, rfl⟩ := Nat.exists_eq_add_of_le hab
  obtain ⟨n, rfl⟩ := Nat.exists_eq_add_of_le hbc
  rw [Nat.add_sub_cancel_left, Nat.add_sub_cancel_left, Nat.add_assoc, Nat.add_sub_cancel_left,
    List.range'_append_1]

namespace Scheme

abbrev Planting.table (p : Planting) : Table := p.builder.table

/-- From `p` to `p'` drafts have been planted, each with its outermost node at an index: the table spells them,
and of the indices that came with them, all but those stand as a child once. -/
structure Planted (ps : List (Draft × Nat)) (p p' : Planting) : Prop where
  grow : p.table.bare <+: p'.table.bare
  spells : ∀ q ∈ ps, p'.table.Spells q.2 q.1
  ordered : p.table.Ordered → p'.table.Ordered
  listed : (ps.map Prod.snd ++ p'.table.listed).Perm
    (p.table.listed ++ List.range' p.table.size (p'.table.size - p.table.size))

namespace Planted

variable {p p' p'' : Planting} {ps qs : List (Draft × Nat)}

theorem size_le (h : Planted ps p p') : p.table.size ≤ p'.table.size := by
  rw [← Table.length_bare, ← Table.length_bare]
  exact h.grow.length_le

theorem nil (p : Planting) : Planted [] p p where
  grow := List.prefix_rfl
  spells := by simp
  ordered := id
  listed := by simp

theorem append (h : Planted ps p p') (h' : Planted qs p' p'') : Planted (ps ++ qs) p p'' where
  grow := h.grow.trans h'.grow
  spells := by
    intro q hq
    rcases List.mem_append.mp hq with hq | hq
    · exact (h.spells q hq).grow h'.grow
    · exact h'.spells q hq
  ordered := fun ho => h'.ordered (h.ordered ho)
  listed := by
    rw [range'_split h.size_le h'.size_le, List.map_append, List.append_assoc, ← List.append_assoc p.table.listed]
    refine (h'.listed.append_left _).trans ?_
    rw [← List.append_assoc]
    exact h.listed.append_right _

theorem of_bare_eq (h : Planted ps p p') (heq : p''.table.bare = p'.table.bare) : Planted ps p p'' where
  grow := heq ▸ h.grow
  spells := fun q hq => (h.spells q hq).grow (heq ▸ List.prefix_rfl)
  ordered := fun ho id => by
    rw [Table.children_eq_of_bare, heq, ← Table.children_eq_of_bare]
    exact h.ordered ho id
  listed := by
    have hsize : p''.table.size = p'.table.size := by rw [← Table.length_bare, heq, Table.length_bare]
    have hlisted : p''.table.listed = p'.table.listed := by
      rw [Table.listed_eq_of_bare, heq, Table.listed_eq_of_bare]
    rw [hsize, hlisted]
    exact h.listed

end Planted

theorem modify_push (t : Table) (node : Node) (f : Node → Node) :
    (t.push node).modify t.size f = t.push (f node) := by
  have hnodes : (t.nodes.push node).modify t.nodes.size f = t.nodes.push (f node) := by
    refine Array.ext_getElem? fun n => ?_
    rw [Array.getElem?_modify, Array.getElem?_push, Array.getElem?_push]
    by_cases h : n = t.nodes.size
    · rw [if_pos h.symm, if_pos h, if_pos h]
      rfl
    · rw [if_neg (Ne.symm h), if_neg h, if_neg h]
  exact congrArg Table.mk hnodes

/-- Adding a node pushes it, with the comment that waits at its start. -/
theorem Planting.table_add (span : Span) (label : String) (kind : Kind Nat) (p : Planting) :
    (Planting.add span label kind p).2.table = p.table.push
      ⟨span, kind, Options.labelled label, p.builder.nextIdentity, p.waiting.find? span.start⟩ := by
  unfold Planting.add
  simp only
  split
  · next comment h =>
    rw [h]
    exact modify_push p.table _ _
  · next h =>
    rw [h]
    rfl

theorem Planting.add_fst (span : Span) (label : String) (kind : Kind Nat) (p : Planting) :
    (Planting.add span label kind p).1 = p.table.size := by
  unfold Planting.add
  simp only
  split <;> rfl

/-- A node pushed over planted drafts is one more planted draft in their place. -/
theorem Planted.push {p p' p'' : Planting} {m : Kind (Draft × Nat)} {span : Span} {label : String} {node : Node}
    (h : Planted m.children p p') (htable : p''.table = p'.table.push node) (hspan : node.span = span)
    (hkind : node.kind = m.map Prod.snd) (hoptions : node.options = Options.labelled label) :
    Planted [(.mk span label (m.map Prod.fst), p'.table.size)] p p'' where
  grow := by
    rw [htable, Table.bare_push]
    exact h.grow.trans (List.prefix_append _ _)
  spells := by
    have hgrow : p'.table.bare <+: p''.table.bare := by
      rw [htable, Table.bare_push]
      exact List.prefix_append _ _
    have here : p''.table.get? p'.table.size = some node := by rw [htable, Table.get?_push, if_pos rfl]
    intro q hq
    obtain rfl := List.mem_singleton.mp hq
    exact .mk here hspan hkind hoptions (fun q hq => (h.spells q hq).lt_size) fun q hq => (h.spells q hq).grow hgrow
  ordered := by
    intro ho
    rw [htable]
    refine (h.ordered ho).push fun child hm => ?_
    rw [hkind, Kind.children_map] at hm
    obtain ⟨q, hq, rfl⟩ := List.mem_map.mp hm
    exact (h.spells q hq).lt_size
  listed := by
    have hsize : p''.table.size = p'.table.size + 1 := by
      rw [htable, Table.size, Table.push, Array.size_push]
      rfl
    have hrange := range'_split h.size_le (Nat.le_succ p'.table.size)
    rw [hsize, hrange, Nat.succ_sub (Nat.le_refl _), Nat.sub_self, List.range'_one, htable, Table.listed_push,
      hkind, Kind.children_map, ← List.append_assoc p.table.listed]
    have hids : (p'.table.listed ++ m.children.map Prod.snd).Perm
        (p.table.listed ++ List.range' p.table.size (p'.table.size - p.table.size)) :=
      List.perm_append_comm.trans h.listed
    exact List.perm_append_comm.trans (hids.append_right [p'.table.size])

theorem Draft.plant_run (span : Span) (label : String) (kind : Kind Draft) (p : Planting) :
    (Draft.mk span label kind).plant p =
      Planting.add span label (kind.traverse Draft.plant p).1 (kind.traverse Draft.plant p).2 := by
  rw [Draft.plant_mk]
  rfl

theorem planted_of_trail {f : Draft → StateM Planting Nat} {p p' : Planting} {ps : List (Draft × Nat)}
    (h : Trail f p ps p') (hps : ∀ q ∈ ps, ∀ p, Planted [(q.1, (f q.1 p).1)] p (f q.1 p).2) :
    Planted ps p p' := by
  induction h with
  | nil p => exact .nil p
  | @cons d p p' rest _ ih =>
    obtain ⟨hd, hrest⟩ := List.forall_mem_cons.mp hps
    exact (hd p).append (ih hrest)

theorem planted_plant (d : Draft) (p : Planting) : Planted [(d, (d.plant p).1)] p (d.plant p).2 := by
  induction d using Draft.children_induction generalizing p with
  | h span label kind ih =>
    obtain ⟨m, rfl, hvalue, htrail⟩ := Kind.traverse_trail Draft.plant kind p
    have hchildren := planted_of_trail htrail fun q hq p => by
      refine ih q.1 ?_ p
      rw [Kind.children_map]
      exact List.mem_map_of_mem hq
    rw [Draft.plant_run, Planting.add_fst, hvalue]
    exact hchildren.push (Planting.table_add ..) rfl rfl rfl

/-! ## Planting a program -/

theorem bare_give (id : Nat) (p : Planting) (entry : Position × Comment) :
    (Planting.give id p entry).table.bare = p.table.bare :=
  Table.bare_modify _ _ fun _ => rfl

theorem bare_giveRest (id : Nat) (span : Span) (p : Planting) :
    (Planting.giveRest id span p).table.bare = p.table.bare := by
  unfold Planting.giveRest
  generalize p.waiting.inside span = entries
  induction entries generalizing p with
  | nil => rfl
  | cons entry rest ih => rw [List.foldl_cons, ih, bare_give]

theorem planted_plantRoot (d : Draft) (p : Planting) :
    Planted [(d, (d.plantRoot p).1)] p (d.plantRoot p).2 :=
  (planted_plant d p).of_bare_eq (bare_giveRest _ _ _)

def Draft.ofComment (comment : Comment) : Draft :=
  .mk comment.span comment.text (.comment comment.text)

theorem planted_plantTrailing (trailing : Option Comment) (p : Planting) :
    ∃ ps : List (Draft × Nat), ps.map Prod.fst = trailing.toList.map Draft.ofComment ∧
      (plantTrailing trailing p).1 = ps.map Prod.snd ∧ Planted ps p (plantTrailing trailing p).2 := by
  cases trailing with
  | none => exact ⟨[], rfl, rfl, .nil p⟩
  | some comment =>
    refine ⟨[(Draft.ofComment comment, p.table.size)], rfl, rfl, ?_⟩
    have hnil : Planted (Kind.comment comment.text : Kind (Draft × Nat)).children p p := .nil p
    exact hnil.push rfl rfl rfl rfl

/-- The roots of a tree spell drafts, and every index of its table stands once as a root or as a child. -/
structure Spelled (t : Tree) (drafts : List Draft) : Prop where
  roots : List.Forall₂ t.table.Spells t.roots drafts
  ordered : t.table.Ordered
  listed : (t.roots ++ t.table.listed).Perm (List.range t.table.size)
  layout : t.layout = Layout.ofRoots t.table t.roots

theorem Spelled.unshared {t : Tree} {drafts : List Draft} (h : Spelled t drafts) : t.Unshared :=
  Tree.unshared_of_nodup (h.listed.nodup_iff.mpr List.nodup_range)

theorem spelled_of_planted {ps : List (Draft × Nat)} {p p' : Planting} (hempty : p.table = Table.empty)
    (h : Planted ps p p') (depth : Nat) :
    Spelled (Tree.ofTable p'.table (ps.map Prod.snd) depth) (ps.map Prod.fst) where
  roots := by
    show List.Forall₂ p'.table.Spells (ps.map Prod.snd) (ps.map Prod.fst)
    rw [List.forall₂_map_left_iff, List.forall₂_map_right_iff, List.forall₂_same]
    exact h.spells
  ordered := by
    refine h.ordered ?_
    rw [hempty]
    exact Table.ordered_empty
  listed := by
    show (ps.map Prod.snd ++ p'.table.listed).Perm (List.range p'.table.size)
    have hlisted := h.listed
    rw [hempty] at hlisted
    simpa [Table.listed, Table.empty, Table.size, List.range_eq_range'] using hlisted
  layout := rfl

theorem spelled_plantProgram (depth serial : Nat) (items : List Item) (drafts : List Draft) :
    Spelled (plantProgram depth serial items drafts)
      (drafts ++ (CommentPlan.ofItems items).2.toList.map Draft.ofComment) := by
  generalize hstart : Planting.mk (Builder.start serial) (CommentPlan.ofItems items).1 = start
  obtain ⟨ps, hfst, hsnd, htrail⟩ := mapM_trail Draft.plantRoot drafts start
  obtain ⟨qs, hfst', hsnd', hplanted'⟩ :=
    planted_plantTrailing (CommentPlan.ofItems items).2 (drafts.mapM Draft.plantRoot start).2
  have hplanted := planted_of_trail htrail fun q _ p => planted_plantRoot q.1 p
  have h := spelled_of_planted (by rw [← hstart]; rfl) (hplanted.append hplanted') depth
  rw [List.map_append, List.map_append, hfst, hfst', ← hsnd, ← hsnd'] at h
  subst hstart
  exact h

theorem parse_eq_ok_iff {depth serial : Nat} {text : String} {t : Tree} :
    parse depth serial text = .ok t ↔ ∃ tokens items drafts, Token.tokenize text = .ok tokens ∧
      Item.read tokens = .ok items ∧ draftProgram items = .ok drafts ∧
      plantProgram depth serial items drafts = t := by
  simp only [parse, ok_bind_iff, ok_pure_iff]
  constructor
  · rintro ⟨tokens, htokens, items, hitems, drafts, hdrafts, rfl⟩
    exact ⟨tokens, items, drafts, htokens, hitems, hdrafts, rfl⟩
  · rintro ⟨tokens, items, drafts, htokens, hitems, hdrafts, rfl⟩
    exact ⟨tokens, htokens, items, hitems, drafts, hdrafts, rfl⟩

/-- The nodes of a parsed tree are those of drafts, none of them shared. -/
theorem spelled_parse {depth serial : Nat} {text : String} {t : Tree} (h : parse depth serial text = .ok t) :
    ∃ drafts, Spelled t drafts := by
  obtain ⟨tokens, items, drafts, -, -, -, rfl⟩ := parse_eq_ok_iff.mp h
  exact ⟨_, spelled_plantProgram depth serial items drafts⟩

theorem unshared_of_parse {depth serial : Nat} {text : String} {t : Tree} (h : parse depth serial text = .ok t) :
    t.Unshared := by
  obtain ⟨drafts, hspelled⟩ := spelled_parse h
  exact hspelled.unshared

theorem layout_of_parse {depth serial : Nat} {text : String} {t : Tree} (h : parse depth serial text = .ok t) :
    t.layout = Layout.ofRoots t.table t.roots := by
  obtain ⟨drafts, hspelled⟩ := spelled_parse h
  exact hspelled.layout

theorem depth_of_parse {depth serial : Nat} {text : String} {t : Tree} (h : parse depth serial text = .ok t) :
    t.depth = depth := by
  obtain ⟨tokens, items, drafts, -, -, -, rfl⟩ := parse_eq_ok_iff.mp h
  rfl

end Scheme

end StructuralEditor
