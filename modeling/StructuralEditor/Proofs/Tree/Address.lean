import Mathlib.Data.List.Forall2
import Mathlib.Data.List.Induction
import Mathlib.Data.List.Nodup
import StructuralEditor.Proofs.Kind.Traversal
import StructuralEditor.Table.Classes
import StructuralEditor.Tree.Builder
import StructuralEditor.Tree.Reconciliation

/-!
# Addresses

A node of a forest is reached from a root by steps, each to an index in a declared field.

* `Step`, `Kind.child?` : a step, and the child it leads to; `Kind.mem_pairs_iff` : the children of two nodes
  that the same step leads to;
* `Table.below?` : the node that steps lead to; `Address`, `Tree.at?` : the node at an address;
* `Tree.Unshared` : no node has two addresses; `Tree.unshared_of_nodup` : so it is if every index is a root or a
  child at most once;
* `Table.SameForms`, `Tree.SameForms` : the nodes on the way to an address have the same forms in two trees;
* `Table.mem_zip_descendants_iff` : below nodes with equal contents, the walks meet at equal steps.
-/

namespace StructuralEditor

/-- A step from a node to the child with an index in one of its fields. -/
structure Step where
  field : Nat
  index : Nat
deriving DecidableEq, Repr

/-! ## Lists side by side -/

section Lists

variable {α β γ δ : Type}

theorem mem_zip_iff {as : List α} {bs : List β} {a : α} {b : β} :
    (a, b) ∈ as.zip bs ↔ ∃ i : Nat, as[i]? = some a ∧ bs[i]? = some b := by
  rw [List.mem_iff_getElem?]
  simp only [List.getElem?_zip_eq_some]

theorem forall₂_of_map_eq_map {f : α → γ} {g : β → γ} {as : List α} {bs : List β}
    (h : as.map f = bs.map g) : List.Forall₂ (fun a b => f a = g b) as bs := by
  have heq : List.Forall₂ Eq (as.map f) (bs.map g) := by
    rw [List.forall₂_eq_eq_eq]
    exact h
  rwa [List.forall₂_map_left_iff, List.forall₂_map_right_iff] at heq

theorem map_eq_map_of_forall₂ {f : α → γ} {g : β → γ} {as : List α} {bs : List β}
    (h : List.Forall₂ (fun a b => f a = g b) as bs) : as.map f = bs.map g := by
  have heq : List.Forall₂ Eq (as.map f) (bs.map g) := by
    rwa [List.forall₂_map_left_iff, List.forall₂_map_right_iff]
  rwa [List.forall₂_eq_eq_eq] at heq

theorem zip_flatMap {d : α → List γ} {e : β → List δ} {as : List α} {bs : List β}
    (h : List.Forall₂ (fun a b => (d a).length = (e b).length) as bs) :
    (as.flatMap d).zip (bs.flatMap e) = (as.zip bs).flatMap fun (a, b) => (d a).zip (e b) := by
  induction h with
  | nil => rfl
  | cons hlen _ ih =>
    rw [List.flatMap_cons, List.flatMap_cons, List.zip_cons_cons, List.flatMap_cons, List.zip_append hlen, ih]

theorem length_flatMap_eq {d : α → List γ} {e : β → List δ} {as : List α} {bs : List β}
    (h : List.Forall₂ (fun a b => (d a).length = (e b).length) as bs) :
    (as.flatMap d).length = (bs.flatMap e).length := by
  induction h with
  | nil => rfl
  | cons hlen _ ih => rw [List.flatMap_cons, List.flatMap_cons, List.length_append, List.length_append, hlen, ih]

/-- Of lists without a common member, nor one twice, only one has a given member. -/
theorem index_eq_of_mem_flatMap {f : α → List β} {as : List α} (h : (as.flatMap f).Nodup) {i j : Nat} {a b : α}
    (ha : as[i]? = some a) (hb : as[j]? = some b) {c : β} (hca : c ∈ f a) (hcb : c ∈ f b) : i = j := by
  obtain ⟨hi, rfl⟩ := List.getElem?_eq_some_iff.mp ha
  obtain ⟨hj, rfl⟩ := List.getElem?_eq_some_iff.mp hb
  have hdisjoint := List.pairwise_iff_getElem.mp (List.nodup_flatMap.mp h).2
  rcases Nat.lt_trichotomy i j with hij | hij | hij
  · exact absurd hcb (hdisjoint i j hi hj hij hca)
  · exact hij
  · exact absurd hca (hdisjoint j i hj hi hij hcb)

theorem index_eq_of_nodup {as : List α} (h : as.Nodup) {i j : Nat} {a : α} (hi : as[i]? = some a)
    (hj : as[j]? = some a) : i = j :=
  (List.getElem?_inj (List.getElem?_eq_some_iff.mp hi).1 h).mp (hi.trans hj.symm)

end Lists

/-! ## Children by steps -/

namespace Kind

variable {α β γ : Type}

def child? (k : Kind α) (s : Step) : Option α :=
  k.fields[s.field]?.bind fun field => field.nodes[s.index]?

theorem mem_children_iff {k : Kind α} {a : α} : a ∈ k.children ↔ ∃ s, k.child? s = some a := by
  simp only [children, List.mem_flatMap, child?, Option.bind_eq_some_iff]
  constructor
  · rintro ⟨field, hfield, ha⟩
    obtain ⟨i, hi⟩ := List.mem_iff_getElem?.mp hfield
    obtain ⟨j, hj⟩ := List.mem_iff_getElem?.mp ha
    exact ⟨⟨i, j⟩, field, hi, hj⟩
  · rintro ⟨s, field, hi, hj⟩
    exact ⟨field, List.mem_of_getElem? hi, List.mem_of_getElem? hj⟩

theorem mem_pairs_iff {k : Kind α} {l : Kind β} {a : α} {b : β} :
    (a, b) ∈ k.pairs l ↔ ∃ s, k.child? s = some a ∧ l.child? s = some b := by
  simp only [pairs, List.mem_flatMap, Prod.exists, mem_zip_iff, child?, Option.bind_eq_some_iff]
  constructor
  · rintro ⟨f, g, ⟨i, hf, hg⟩, j, ha, hb⟩
    exact ⟨⟨i, j⟩, ⟨f, hf, ha⟩, g, hg, hb⟩
  · rintro ⟨s, ⟨f, hf, ha⟩, g, hg, hb⟩
    exact ⟨f, g, ⟨s.field, hf, hg⟩, s.index, ha, hb⟩

theorem child?_map (f : α → β) (k : Kind α) (s : Step) : (k.map f).child? s = (k.child? s).map f := by
  simp only [child?, fields_map, List.getElem?_map, Option.bind_map, Option.map_bind]
  congr 1
  funext field
  simp [Field.nodes_map]

theorem child?_eq_none_of_isLeaf {k : Kind α} (h : k.isLeaf = true) (s : Step) : k.child? s = none := by
  cases k <;> simp_all [isLeaf, tag, Tag.isLeaf, child?, fields]

theorem step_eq_of_child? {k : Kind α} (h : k.children.Nodup) {s s' : Step} {a : α} (hs : k.child? s = some a)
    (hs' : k.child? s' = some a) : s = s' := by
  obtain ⟨field, hfield, ha⟩ := Option.bind_eq_some_iff.mp hs
  obtain ⟨field', hfield', ha'⟩ := Option.bind_eq_some_iff.mp hs'
  have hsame := index_eq_of_mem_flatMap h hfield hfield' (List.mem_of_getElem? ha) (List.mem_of_getElem? ha')
  rw [← hsame, hfield] at hfield'
  cases hfield'
  have hnodup := (List.nodup_flatMap.mp h).1 field (List.mem_of_getElem? hfield)
  have hindex := index_eq_of_nodup hnodup ha ha'
  cases s
  cases s'
  simp_all

/-- Kinds that agree after maps have children under the same steps, which agree after the maps. -/
theorem exists_child?_of_map_eq {f : α → γ} {g : β → γ} {k : Kind α} {l : Kind β}
    (h : k.map f = l.map g) {s : Step} {b : β} (hb : l.child? s = some b) :
    ∃ a, k.child? s = some a ∧ f a = g b := by
  have hs := congrArg (child? · s) h
  simp only [child?_map, hb, Option.map_some] at hs
  exact Option.map_eq_some_iff.mp hs

theorem zip_children {f : α → γ} {g : β → γ} {k : Kind α} {l : Kind β} (h : k.map f = l.map g) :
    k.children.zip l.children = k.pairs l := by
  have hfields := congrArg fields h
  rw [fields_map, fields_map] at hfields
  refine zip_flatMap ((forall₂_of_map_eq_map hfields).imp fun x y hxy => ?_)
  have := congrArg (fun field => field.nodes.length) hxy
  simpa [Field.nodes_map] using this

end Kind

/-! ## Nodes by steps -/

namespace Table

variable {t old new : Table}

def tag? (t : Table) (id : Nat) : Option Tag := (t.get? id).map (·.kind.tag)

def child? (t : Table) (id : Nat) (s : Step) : Option Nat := (t.get? id).bind (·.kind.child? s)

def below? (t : Table) (id : Nat) : List Step → Option Nat
  | [] => some id
  | s :: rest => (t.child? id s).bind fun child => t.below? child rest

theorem below?_cons_eq_some {id m : Nat} {s : Step} {rest : List Step} :
    t.below? id (s :: rest) = some m ↔ ∃ child, t.child? id s = some child ∧ t.below? child rest = some m := by
  rw [below?, Option.bind_eq_some_iff]

theorem below?_concat_eq_some {id m : Nat} {steps : List Step} {s : Step} :
    t.below? id (steps ++ [s]) = some m ↔ ∃ above, t.below? id steps = some above ∧ t.child? above s = some m := by
  induction steps generalizing id with
  | nil => simp [below?]
  | cons s' rest ih =>
    rw [List.cons_append, below?_cons_eq_some]
    simp only [ih, below?_cons_eq_some]
    constructor
    · rintro ⟨child, hchild, above, habove, hm⟩
      exact ⟨above, ⟨child, hchild, habove⟩, hm⟩
    · rintro ⟨above, ⟨child, hchild, habove⟩, hm⟩
      exact ⟨child, hchild, above, habove, hm⟩

theorem child?_eq_some {id child : Nat} {s : Step} :
    t.child? id s = some child ↔ ∃ node, t.get? id = some node ∧ node.kind.child? s = some child := by
  rw [child?, Option.bind_eq_some_iff]

theorem child?_of_get? {id : Nat} {node : Node} (h : t.get? id = some node) (s : Step) :
    t.child? id s = node.kind.child? s := by
  rw [child?, h, Option.bind_some]

theorem lt_of_child? (ho : t.Ordered) {id child : Nat} {s : Step} (h : t.child? id s = some child) :
    child < id := by
  obtain ⟨node, hnode, hchild⟩ := child?_eq_some.mp h
  refine ho id child ?_
  rw [children, hnode]
  exact Kind.mem_children_iff.mpr ⟨s, hchild⟩

theorem get?_push (t : Table) (node : Node) (n : Nat) :
    (t.push node).get? n = if n = t.size then some node else t.get? n := by
  rw [push, get?, Array.getElem?_push]
  rfl

theorem get?_modify (t : Table) (id n : Nat) (f : Node → Node) :
    (t.modify id f).get? n = if id = n then (t.get? n).map f else t.get? n := by
  simp only [modify, get?, Array.getElem?_modify]

theorem ordered_empty : empty.Ordered := by
  intro id child hm
  simp [children, get?, empty] at hm

theorem Ordered.push (ho : t.Ordered) {node : Node} (hnode : ∀ child ∈ node.kind.children, child < t.size) :
    (t.push node).Ordered := by
  intro id child hm
  rw [children, get?_push] at hm
  by_cases h : id = t.size
  · rw [if_pos h] at hm
    rw [h]
    exact hnode child hm
  · rw [if_neg h] at hm
    exact ho id child hm

/-- All indices that stand as a child, in the order of their parents. -/
def listed (t : Table) : List Nat := t.nodes.toList.flatMap (·.kind.children)

theorem mem_listed_of_child? {id child : Nat} {s : Step} (h : t.child? id s = some child) : child ∈ t.listed := by
  obtain ⟨node, hnode, hchild⟩ := child?_eq_some.mp h
  rw [get?, ← Array.getElem?_toList] at hnode
  exact List.mem_flatMap.mpr ⟨node, List.mem_of_getElem? hnode, Kind.mem_children_iff.mpr ⟨s, hchild⟩⟩

/-- A node that is listed once is a child of one node, by one step. -/
theorem eq_of_child?_of_nodup (h : t.listed.Nodup) {id id' child : Nat} {s s' : Step}
    (hs : t.child? id s = some child) (hs' : t.child? id' s' = some child) : id = id' ∧ s = s' := by
  obtain ⟨node, hnode, hchild⟩ := child?_eq_some.mp hs
  obtain ⟨node', hnode', hchild'⟩ := child?_eq_some.mp hs'
  rw [get?, ← Array.getElem?_toList] at hnode hnode'
  have hsame := index_eq_of_mem_flatMap h hnode hnode' (Kind.mem_children_iff.mpr ⟨s, hchild⟩)
    (Kind.mem_children_iff.mpr ⟨s', hchild'⟩)
  rw [← hsame, hnode] at hnode'
  cases hnode'
  have hnodup := (List.nodup_flatMap.mp h).1 node (List.mem_of_getElem? hnode)
  exact ⟨hsame, Kind.step_eq_of_child? hnodup hchild hchild'⟩

/-- The nodes on the way from `o` and `n`, ends included, have the same forms. -/
def SameForms (old new : Table) (o n : Nat) (steps : List Step) : Prop :=
  ∀ way, way <+: steps → (old.below? o way).bind old.tag? = (new.below? n way).bind new.tag?

theorem sameForms_nil {o n : Nat} : SameForms old new o n [] ↔ old.tag? o = new.tag? n := by
  constructor
  · intro h
    exact h [] (List.nil_prefix)
  · intro h way hway
    obtain rfl := List.prefix_nil.mp hway
    exact h

theorem sameForms_cons {o n o' n' : Nat} {s : Step} {rest : List Step} (ho : old.child? o s = some o')
    (hn : new.child? n s = some n') :
    SameForms old new o n (s :: rest) ↔ old.tag? o = new.tag? n ∧ SameForms old new o' n' rest := by
  constructor
  · intro h
    refine ⟨h [] List.nil_prefix, fun way hway => ?_⟩
    have := h (s :: way) (List.cons_prefix_cons.mpr ⟨rfl, hway⟩)
    simpa only [below?, ho, hn, Option.bind_some] using this
  · rintro ⟨htag, h⟩ way hway
    cases way with
    | nil => exact htag
    | cons s' way =>
      obtain ⟨rfl, hrest⟩ := List.cons_prefix_cons.mp hway
      simpa only [below?, ho, hn, Option.bind_some] using h way hrest

/-! ## Equal contents -/

theorem kind_map_content_eq (ho : old.Ordered) (hn : new.Ordered) {o n : Nat} {a b : Node}
    (ha : old.get? o = some a) (hb : new.get? n = some b) (h : old.content o = new.content n) :
    a.kind.map old.content = b.kind.map new.content := by
  rw [content_of_get? ho ha, content_of_get? hn hb] at h
  exact Content.mk.inj h

theorem descendants_of_get? (ho : t.Ordered) {id : Nat} {node : Node} (h : t.get? id = some node) :
    t.descendants id = id :: node.kind.children.flatMap t.descendants := by
  have hlt : id < t.size := (Array.getElem?_eq_some_iff.mp h).1
  have hchildren : t.children id = node.kind.children := by rw [children, h]
  rw [descendants, if_pos hlt, hchildren]
  congr 1
  refine List.flatMap_congr fun child hm => if_pos (ho id child ?_)
  rwa [hchildren]

theorem exists_get?_of_child? (ho : t.Ordered) {id child : Nat} {s : Step} (h : t.child? id s = some child) :
    ∃ node, t.get? child = some node := by
  obtain ⟨node, hnode, -⟩ := child?_eq_some.mp h
  have hlt : id < t.nodes.size := (Array.getElem?_eq_some_iff.mp hnode).1
  exact ⟨_, Array.getElem?_eq_getElem (Nat.lt_trans (lt_of_child? ho h) hlt)⟩

theorem exists_get?_of_below? (ho : t.Ordered) {id last : Nat} {node : Node} (hnode : t.get? id = some node)
    {steps : List Step} (h : t.below? id steps = some last) : ∃ node', t.get? last = some node' := by
  induction steps generalizing id node with
  | nil =>
    cases h
    exact ⟨node, hnode⟩
  | cons s rest ih =>
    obtain ⟨child, hs, hrest⟩ := below?_cons_eq_some.mp h
    obtain ⟨node', hnode'⟩ := exists_get?_of_child? ho hs
    exact ih hnode' hrest

/-- Under nodes with equal contents the same steps lead on, to nodes with equal contents. -/
theorem exists_child?_of_content_eq (ho : old.Ordered) (hn : new.Ordered) {o n n' : Nat} {a : Node}
    (ha : old.get? o = some a) (h : old.content o = new.content n) {s : Step} (hs : new.child? n s = some n') :
    ∃ o', old.child? o s = some o' ∧ old.content o' = new.content n' := by
  obtain ⟨b, hb, hchild⟩ := child?_eq_some.mp hs
  rw [child?_of_get? ha]
  exact Kind.exists_child?_of_map_eq (kind_map_content_eq ho hn ha hb h) hchild

theorem content_eq_of_child? (ho : old.Ordered) (hn : new.Ordered) {o n o' n' : Nat}
    (h : old.content o = new.content n) {s : Step} (hso : old.child? o s = some o')
    (hsn : new.child? n s = some n') : old.content o' = new.content n' := by
  obtain ⟨a, ha, -⟩ := child?_eq_some.mp hso
  obtain ⟨o'', ho'', heq⟩ := exists_child?_of_content_eq ho hn ha h hsn
  rw [hso] at ho''
  cases ho''
  exact heq

theorem tag?_eq_of_content (ho : old.Ordered) (hn : new.Ordered) {o n : Nat} {a b : Node}
    (ha : old.get? o = some a) (hb : new.get? n = some b) (h : old.content o = new.content n) :
    old.tag? o = new.tag? n := by
  have := congrArg Kind.tag (kind_map_content_eq ho hn ha hb h)
  simpa [tag?, ha, hb] using this

/-- A property of pairs of children is one of the children side by side, if the contents are equal. -/
theorem forall₂_children (ho : old.Ordered) (hn : new.Ordered) {o n : Nat} {a b : Node}
    (ha : old.get? o = some a) (hb : new.get? n = some b) (h : old.content o = new.content n)
    {R : Nat → Nat → Prop} (hR : ∀ s x y, old.child? o s = some x → new.child? n s = some y → R x y) :
    List.Forall₂ R a.kind.children b.kind.children := by
  have hkind := kind_map_content_eq ho hn ha hb h
  have hlength : a.kind.children.length = b.kind.children.length := by
    have := congrArg (fun k => k.children.length) hkind
    simpa [Kind.children_map] using this
  refine List.forall₂_iff_zip.mpr ⟨hlength, fun {x y} hxy => ?_⟩
  rw [Kind.zip_children hkind, Kind.mem_pairs_iff] at hxy
  obtain ⟨s, hx, hy⟩ := hxy
  exact hR s x y (by rw [child?_of_get? ha, hx]) (by rw [child?_of_get? hb, hy])

theorem length_descendants_eq (ho : old.Ordered) (hn : new.Ordered) {o n : Nat} {a b : Node}
    (ha : old.get? o = some a) (hb : new.get? n = some b) (h : old.content o = new.content n) :
    (old.descendants o).length = (new.descendants n).length := by
  induction o using Nat.strongRecOn generalizing n a b with
  | ind o ih =>
    rw [descendants_of_get? ho ha, descendants_of_get? hn hb, List.length_cons, List.length_cons]
    congr 1
    refine length_flatMap_eq (forall₂_children ho hn ha hb h fun s x y hx hy => ?_)
    obtain ⟨a', ha'⟩ := exists_get?_of_child? ho hx
    obtain ⟨b', hb'⟩ := exists_get?_of_child? hn hy
    exact ih x (lt_of_child? ho hx) ha' hb' (content_eq_of_child? ho hn h hx hy)

/-- Below nodes with equal contents, the walks meet at equal steps. -/
theorem mem_zip_descendants_iff (ho : old.Ordered) (hn : new.Ordered) {o n x y : Nat} {a b : Node}
    (ha : old.get? o = some a) (hb : new.get? n = some b) (h : old.content o = new.content n) :
    (x, y) ∈ (old.descendants o).zip (new.descendants n) ↔
      ∃ steps, old.below? o steps = some x ∧ new.below? n steps = some y := by
  induction o using Nat.strongRecOn generalizing n a b with
  | ind o ih =>
    have hlengths : List.Forall₂ (fun x y => (old.descendants x).length = (new.descendants y).length)
        a.kind.children b.kind.children := by
      refine forall₂_children ho hn ha hb h fun s x y hx hy => ?_
      obtain ⟨a', ha'⟩ := exists_get?_of_child? ho hx
      obtain ⟨b', hb'⟩ := exists_get?_of_child? hn hy
      exact length_descendants_eq ho hn ha' hb' (content_eq_of_child? ho hn h hx hy)
    rw [descendants_of_get? ho ha, descendants_of_get? hn hb, List.zip_cons_cons, List.mem_cons,
      zip_flatMap hlengths, Kind.zip_children (kind_map_content_eq ho hn ha hb h), List.mem_flatMap]
    constructor
    · rintro (heq | ⟨⟨o', n'⟩, hpair, hxy⟩)
      · cases heq
        exact ⟨[], rfl, rfl⟩
      · obtain ⟨s, hso, hsn⟩ := Kind.mem_pairs_iff.mp hpair
        rw [← child?_of_get? ha] at hso
        rw [← child?_of_get? hb] at hsn
        obtain ⟨a', ha'⟩ := exists_get?_of_child? ho hso
        obtain ⟨b', hb'⟩ := exists_get?_of_child? hn hsn
        obtain ⟨steps, hx, hy⟩ :=
          (ih o' (lt_of_child? ho hso) ha' hb' (content_eq_of_child? ho hn h hso hsn)).mp hxy
        exact ⟨s :: steps, below?_cons_eq_some.mpr ⟨o', hso, hx⟩, below?_cons_eq_some.mpr ⟨n', hsn, hy⟩⟩
    · rintro ⟨steps, hx, hy⟩
      cases steps with
      | nil =>
        cases hx
        cases hy
        exact .inl rfl
      | cons s steps =>
        obtain ⟨o', hso, hx⟩ := below?_cons_eq_some.mp hx
        obtain ⟨n', hsn, hy⟩ := below?_cons_eq_some.mp hy
        obtain ⟨a', ha'⟩ := exists_get?_of_child? ho hso
        obtain ⟨b', hb'⟩ := exists_get?_of_child? hn hsn
        refine .inr ⟨(o', n'), Kind.mem_pairs_iff.mpr ⟨s, ?_, ?_⟩, ?_⟩
        · rw [← child?_of_get? ha, hso]
        · rw [← child?_of_get? hb, hsn]
        · exact (ih o' (lt_of_child? ho hso) ha' hb' (content_eq_of_child? ho hn h hso hsn)).mpr ⟨steps, hx, hy⟩

/-- Steps from nodes with equal contents meet nodes of the same forms, with equal contents at the end. -/
theorem sameForms_of_content_eq (ho : old.Ordered) (hn : new.Ordered) {o n o' n' : Nat} {steps : List Step}
    (htag : old.tag? o = new.tag? n) (h : old.content o = new.content n) (hso : old.below? o steps = some o')
    (hsn : new.below? n steps = some n') :
    SameForms old new o n steps ∧ old.content o' = new.content n' := by
  induction steps generalizing o n with
  | nil =>
    cases hso
    cases hsn
    exact ⟨sameForms_nil.mpr htag, h⟩
  | cons s steps ih =>
    obtain ⟨x, hx, hso⟩ := below?_cons_eq_some.mp hso
    obtain ⟨y, hy, hsn⟩ := below?_cons_eq_some.mp hsn
    have hxy := content_eq_of_child? ho hn h hx hy
    obtain ⟨a, ha⟩ := exists_get?_of_child? ho hx
    obtain ⟨b, hb⟩ := exists_get?_of_child? hn hy
    obtain ⟨hforms, heq⟩ := ih (tag?_eq_of_content ho hn ha hb hxy) hxy hso hsn
    exact ⟨(sameForms_cons hx hy).mpr ⟨htag, hforms⟩, heq⟩

end Table

theorem Builder.ordered_of_add {b b' : Builder} {span : Span} {kind : Kind Nat} {options : Options}
    (ho : b.table.Ordered) (h : b.add span kind options = .ok b') : b'.table.Ordered := by
  unfold Builder.add at h
  split at h
  · cases h
  · next hnone =>
    cases h
    refine ho.push fun child hm => ?_
    simpa using List.find?_eq_none.mp hnone child hm

/-! ## Nodes by addresses -/

/-- The place of a node in a forest: the index of a root and the steps from it. -/
structure Address where
  root : Nat
  steps : List Step
deriving DecidableEq, Repr

namespace Tree

def at? (t : Tree) (a : Address) : Option Nat :=
  t.roots[a.root]?.bind fun root => t.table.below? root a.steps

def tagAt? (t : Tree) (a : Address) : Option Tag := (t.at? a).bind t.table.tag?

/-- The nodes on the way to an address, ends included, have the same forms in both trees. -/
def SameForms (old new : Tree) (a : Address) : Prop :=
  ∀ way, way <+: a.steps → old.tagAt? ⟨a.root, way⟩ = new.tagAt? ⟨a.root, way⟩

/-- No node has two addresses. -/
def Unshared (t : Tree) : Prop :=
  ∀ a a' id, t.at? a = some id → t.at? a' = some id → a = a'

variable {t old new : Tree}

theorem at?_eq_some {a : Address} {id : Nat} :
    t.at? a = some id ↔ ∃ root, t.roots[a.root]? = some root ∧ t.table.below? root a.steps = some id := by
  rw [at?, Option.bind_eq_some_iff]

theorem at?_concat {i : Nat} {steps : List Step} {s : Step} {id : Nat} :
    t.at? ⟨i, steps ++ [s]⟩ = some id ↔ ∃ above, t.at? ⟨i, steps⟩ = some above ∧ t.table.child? above s = some id := by
  simp only [at?_eq_some, Table.below?_concat_eq_some]
  constructor
  · rintro ⟨root, hroot, above, habove, hid⟩
    exact ⟨above, ⟨root, hroot, habove⟩, hid⟩
  · rintro ⟨above, ⟨root, hroot, habove⟩, hid⟩
    exact ⟨root, hroot, above, habove, hid⟩

/-- A node at the end of a step is no root, if every index is a root or a child at most once. -/
theorem not_at?_root_of_nodup (h : (t.roots ++ t.table.listed).Nodup) {i id above : Nat} {s : Step}
    (hroot : t.at? ⟨i, []⟩ = some id) : t.table.child? above s ≠ some id := by
  intro hs
  obtain ⟨root, hi, hid⟩ := at?_eq_some.mp hroot
  cases hid
  exact List.disjoint_of_nodup_append h (List.mem_of_getElem? hi) (Table.mem_listed_of_child? hs)

/-- No node is shared if every index is a root or a child at most once. -/
theorem unshared_of_nodup (h : (t.roots ++ t.table.listed).Nodup) : t.Unshared := by
  rintro ⟨i, steps⟩ ⟨j, steps'⟩ id hat hat'
  -- Two ways to a node end with the same step from the same node, so the induction is from the last step up.
  induction steps using List.reverseRecOn generalizing steps' id with
  | nil =>
    cases steps' using List.reverseRecOn with
    | nil =>
      obtain ⟨root, hi, hid⟩ := at?_eq_some.mp hat
      obtain ⟨root', hj, hid'⟩ := at?_eq_some.mp hat'
      cases hid
      cases hid'
      obtain rfl : i = j := index_eq_of_nodup (List.Nodup.of_append_left h) hi hj
      rfl
    | append_singleton steps' s' =>
      obtain ⟨above, -, hs'⟩ := at?_concat.mp hat'
      exact absurd hs' (not_at?_root_of_nodup h hat)
  | append_singleton steps s ih =>
    obtain ⟨above, habove, hs⟩ := at?_concat.mp hat
    cases steps' using List.reverseRecOn with
    | nil => exact absurd hs (not_at?_root_of_nodup h hat')
    | append_singleton steps' s' =>
      obtain ⟨above', habove', hs'⟩ := at?_concat.mp hat'
      obtain ⟨rfl, rfl⟩ := Table.eq_of_child?_of_nodup (List.Nodup.of_append_right h) hs hs'
      have := ih steps' above habove habove'
      cases this
      rfl

theorem sameForms_iff {a : Address} {o n : Nat} (ho : old.roots[a.root]? = some o)
    (hn : new.roots[a.root]? = some n) :
    SameForms old new a ↔ Table.SameForms old.table new.table o n a.steps := by
  simp only [SameForms, Table.SameForms, tagAt?, at?, ho, hn, Option.bind_some]

end Tree

end StructuralEditor
