import StructuralEditor.Digest.Fx
import StructuralEditor.Proofs.Tree.Address

/-!
# What a reconciled tree takes over

* `Table.Tells`, `Table.mem_adoptions_iff` : if the test that tells nodes apart goes by what they say, the adoptions
  below a pair are those of the nodes that the same steps lead to;
* `Table.get?_foldl_adopt_of_mem`, `Table.get?_foldl_adopt_of_forall_ne` : what adoptions do to a node;
* `Tree.CollisionFree` : trees in which no two nodes with equal digests say different things;
* `Tree.TakesIdentity`, `Tree.TakesOptions` : the conditions for taking over an identity and options;
* `Tree.reconcile_node_iff` : a node of the reconciled tree in closed form.
-/

namespace StructuralEditor

/-- The node after it has taken over what an adoption says. -/
def Adoption.onto (x : Adoption) (node : Node) : Node :=
  { node with identity := x.identity, options := x.options.getD node.options }

theorem Adoption.onto_onto (x : Adoption) (node : Node) : x.onto (x.onto node) = x.onto node := by
  cases h : x.options <;> simp [onto, h]

namespace Table

variable {t old new : Table} {same : Nat → Nat → Bool}

/-- The test takes nodes of the two tables to be the same just if they say the same. -/
def Tells (old : Table) (same : Nat → Nat → Bool) (new : Table) : Prop :=
  ∀ o n a b, old.get? o = some a → new.get? n = some b → (same o n = true ↔ old.content o = new.content n)

/-- What `n` takes over from the node `a` at `o`: the options too if the contents are equal. -/
def adoptionOf (old new : Table) (o n : Nat) (a : Node) : Adoption :=
  ⟨n, a.identity, if old.content o = new.content n then some a.options else none⟩

/-- What the node that steps lead to from `n` takes over from the one that they lead to from `o`: all nodes
on the way have the same forms, and at the end stands no leaf, or one with the same content. -/
def Takes (old new : Table) (o n : Nat) (steps : List Step) (x : Adoption) : Prop :=
  ∃ o' n' a b, old.below? o steps = some o' ∧ new.below? n steps = some n' ∧ old.get? o' = some a ∧
    new.get? n' = some b ∧ SameForms old new o n steps ∧
    (b.kind.isLeaf = true → old.content o' = new.content n') ∧ x = old.adoptionOf new o' n' a

theorem takes_nil {o n : Nat} {a b : Node} (ha : old.get? o = some a) (hb : new.get? n = some b)
    {x : Adoption} :
    Takes old new o n [] x ↔ a.kind.tag = b.kind.tag ∧
      (b.kind.isLeaf = true → old.content o = new.content n) ∧ x = old.adoptionOf new o n a := by
  have htag : old.tag? o = new.tag? n ↔ a.kind.tag = b.kind.tag := by simp [tag?, ha, hb]
  constructor
  · rintro ⟨o', n', a', b', hso, hsn, ha', hb', hforms, hleaf, rfl⟩
    cases hso
    cases hsn
    cases ha.symm.trans ha'
    cases hb.symm.trans hb'
    exact ⟨htag.mp (sameForms_nil.mp hforms), hleaf, rfl⟩
  · rintro ⟨h, hleaf, rfl⟩
    exact ⟨o, n, a, b, rfl, rfl, ha, hb, sameForms_nil.mpr (htag.mpr h), hleaf, rfl⟩

theorem takes_cons {o n : Nat} {s : Step} {rest : List Step} {x : Adoption} :
    Takes old new o n (s :: rest) x ↔ old.tag? o = new.tag? n ∧
      ∃ o' n', old.child? o s = some o' ∧ new.child? n s = some n' ∧ Takes old new o' n' rest x := by
  constructor
  · rintro ⟨o', n', a, b, hso, hsn, ha, hb, hforms, hleaf, rfl⟩
    obtain ⟨p, hp, hso⟩ := below?_cons_eq_some.mp hso
    obtain ⟨q, hq, hsn⟩ := below?_cons_eq_some.mp hsn
    obtain ⟨htag, hforms⟩ := (sameForms_cons hp hq).mp hforms
    exact ⟨htag, p, q, hp, hq, o', n', a, b, hso, hsn, ha, hb, hforms, hleaf, rfl⟩
  · rintro ⟨htag, p, q, hp, hq, o', n', a, b, hso, hsn, ha, hb, hforms, hleaf, rfl⟩
    exact ⟨o', n', a, b, below?_cons_eq_some.mpr ⟨p, hp, hso⟩, below?_cons_eq_some.mpr ⟨q, hq, hsn⟩, ha, hb,
      (sameForms_cons hp hq).mpr ⟨htag, hforms⟩, hleaf, rfl⟩

/-! ## Adoptions by steps -/

theorem adoptions_of_same {o n : Nat} {a b : Node} (ha : old.get? o = some a) (hb : new.get? n = some b)
    (h : same o n = true) : old.adoptions same new o n =
      ((old.descendants o).zip (new.descendants n)).filterMap fun (o, n) => old.adoptWhole o n := by
  rw [adoptions, ha, hb]
  exact if_pos h

theorem mem_adoptions_of_content_eq (ho : old.Ordered) (hn : new.Ordered) {o n : Nat} {a b : Node}
    (ha : old.get? o = some a) (hb : new.get? n = some b) (hsame : same o n = true)
    (h : old.content o = new.content n) {x : Adoption} :
    x ∈ old.adoptions same new o n ↔ ∃ steps, Takes old new o n steps x := by
  have htag := tag?_eq_of_content ho hn ha hb h
  simp only [adoptions_of_same ha hb hsame, List.mem_filterMap, Prod.exists, mem_zip_descendants_iff ho hn ha hb h,
    adoptWhole, Option.map_eq_some_iff]
  constructor
  · rintro ⟨o', n', ⟨steps, hso, hsn⟩, a', ha', rfl⟩
    obtain ⟨hforms, heq⟩ := sameForms_of_content_eq ho hn htag h hso hsn
    have hend := hforms steps List.prefix_rfl
    simp only [hso, hsn, Option.bind_some, tag?, ha', Option.map_some] at hend
    obtain ⟨b', hb', -⟩ := Option.map_eq_some_iff.mp hend.symm
    refine ⟨steps, o', n', a', b', hso, hsn, ha', hb', hforms, fun _ => heq, ?_⟩
    rw [adoptionOf, if_pos heq]
  · rintro ⟨steps, o', n', a', b', hso, hsn, ha', hb', hforms, -, rfl⟩
    refine ⟨o', n', ⟨steps, hso, hsn⟩, a', ha', ?_⟩
    rw [adoptionOf, if_pos (sameForms_of_content_eq ho hn htag h hso hsn).2]

theorem mem_adoptions_of_different {o n : Nat} {a b : Node} (ha : old.get? o = some a)
    (hb : new.get? n = some b) (hsame : ¬ same o n = true) (h : old.content o ≠ new.content n)
    (hkind : a.kind.tag ≠ b.kind.tag ∨ b.kind.isLeaf = true) {x : Adoption} :
    x ∈ old.adoptions same new o n ↔ ∃ steps, Takes old new o n steps x := by
  rw [adoptions, ha, hb]
  simp only [if_neg hsame, if_pos hkind, List.not_mem_nil, false_iff]
  rintro ⟨steps, htakes⟩
  cases steps with
  | nil =>
    obtain ⟨htag, hleaf, -⟩ := (takes_nil ha hb).mp htakes
    exact h (hleaf (hkind.resolve_left (not_not.mpr htag)))
  | cons s rest =>
    obtain ⟨htag, o', n', -, hsn, -⟩ := takes_cons.mp htakes
    have htag : a.kind.tag = b.kind.tag := by simpa [tag?, ha, hb] using htag
    rw [child?_of_get? hb, Kind.child?_eq_none_of_isLeaf (hkind.resolve_left (not_not.mpr htag))] at hsn
    cases hsn

theorem mem_adoptions_of_container (hn : new.Ordered) {o n : Nat} {a b : Node} (ha : old.get? o = some a)
    (hb : new.get? n = some b) (hsame : ¬ same o n = true) (h : old.content o ≠ new.content n)
    (htag : a.kind.tag = b.kind.tag) (hleaf : b.kind.isLeaf ≠ true) {x : Adoption} :
    x ∈ old.adoptions same new o n ↔ x = old.adoptionOf new o n a ∨
      ∃ s o' n', old.child? o s = some o' ∧ new.child? n s = some n' ∧ x ∈ old.adoptions same new o' n' := by
  have hown : old.adoptionOf new o n a = ⟨n, a.identity, none⟩ := by rw [adoptionOf, if_neg h]
  rw [adoptions, ha, hb]
  simp only [if_neg hsame, if_neg (not_or.mpr ⟨not_not.mpr htag, hleaf⟩), List.mem_cons, hown, List.mem_flatMap,
    Prod.exists, Kind.mem_pairs_iff, ← child?_of_get? ha, ← child?_of_get? hb]
  constructor
  · rintro (rfl | ⟨o', n', ⟨s, hso, hsn⟩, hx⟩)
    · exact .inl rfl
    · rw [if_pos (lt_of_child? hn hsn)] at hx
      exact .inr ⟨s, o', n', hso, hsn, hx⟩
  · rintro (rfl | ⟨s, o', n', hso, hsn, hx⟩)
    · exact .inl rfl
    · refine .inr ⟨o', n', ⟨s, hso, hsn⟩, ?_⟩
      rwa [if_pos (lt_of_child? hn hsn)]

theorem mem_adoptions_of_get? (ho : old.Ordered) (hn : new.Ordered) (htells : old.Tells same new) {o n : Nat}
    {a b : Node} {x : Adoption} (ha : old.get? o = some a) (hb : new.get? n = some b) :
    x ∈ old.adoptions same new o n ↔ ∃ steps, Takes old new o n steps x := by
  induction n using Nat.strongRecOn generalizing o a b with
  | ind n ih =>
    have hsame := htells o n a b ha hb
    by_cases h : old.content o = new.content n
    · exact mem_adoptions_of_content_eq ho hn ha hb (hsame.mpr h) h
    by_cases hkind : a.kind.tag ≠ b.kind.tag ∨ b.kind.isLeaf = true
    · exact mem_adoptions_of_different ha hb (mt hsame.mp h) h hkind
    obtain ⟨htag, hleaf⟩ := not_or.mp hkind
    have htag := not_not.mp htag
    rw [mem_adoptions_of_container hn ha hb (mt hsame.mp h) h htag hleaf]
    constructor
    · rintro (rfl | ⟨s, o', n', hso, hsn, hx⟩)
      · exact ⟨[], (takes_nil ha hb).mpr ⟨htag, fun h => absurd h hleaf, rfl⟩⟩
      · obtain ⟨a', ha'⟩ := exists_get?_of_child? ho hso
        obtain ⟨b', hb'⟩ := exists_get?_of_child? hn hsn
        obtain ⟨steps, htakes⟩ := (ih n' (lt_of_child? hn hsn) ha' hb').mp hx
        refine ⟨s :: steps, takes_cons.mpr ⟨?_, o', n', hso, hsn, htakes⟩⟩
        simp [tag?, ha, hb, htag]
    · rintro ⟨steps, htakes⟩
      cases steps with
      | nil => exact .inl ((takes_nil ha hb).mp htakes).2.2
      | cons s rest =>
        obtain ⟨-, o', n', hso, hsn, htakes⟩ := takes_cons.mp htakes
        obtain ⟨a', ha'⟩ := exists_get?_of_child? ho hso
        obtain ⟨b', hb'⟩ := exists_get?_of_child? hn hsn
        exact .inr ⟨s, o', n', hso, hsn, (ih n' (lt_of_child? hn hsn) ha' hb').mpr ⟨rest, htakes⟩⟩

theorem exists_get?_of_takes {o n : Nat} {steps : List Step} {x : Adoption} (h : Takes old new o n steps x) :
    (∃ a, old.get? o = some a) ∧ ∃ b, new.get? n = some b := by
  cases steps with
  | nil =>
    obtain ⟨o', n', a, b, hso, hsn, ha, hb, -⟩ := h
    cases hso
    cases hsn
    exact ⟨⟨a, ha⟩, b, hb⟩
  | cons s rest =>
    obtain ⟨-, o', n', hso, hsn, -⟩ := takes_cons.mp h
    obtain ⟨a, ha, -⟩ := child?_eq_some.mp hso
    obtain ⟨b, hb, -⟩ := child?_eq_some.mp hsn
    exact ⟨⟨a, ha⟩, b, hb⟩

/-- The adoptions below a pair are those of the nodes that the same steps lead to. -/
theorem mem_adoptions_iff (ho : old.Ordered) (hn : new.Ordered) (htells : old.Tells same new) {o n : Nat}
    {x : Adoption} : x ∈ old.adoptions same new o n ↔ ∃ steps, Takes old new o n steps x := by
  constructor
  · intro hx
    cases ha : old.get? o with
    | none => simp [adoptions, ha] at hx
    | some a =>
      cases hb : new.get? n with
      | none => simp [adoptions, ha, hb] at hx
      | some b => exact (mem_adoptions_of_get? ho hn htells ha hb).mp hx
  · rintro ⟨steps, htakes⟩
    obtain ⟨⟨a, ha⟩, b, hb⟩ := exists_get?_of_takes htakes
    exact (mem_adoptions_of_get? ho hn htells ha hb).mpr ⟨steps, htakes⟩

/-! ## The effect of adoptions -/

theorem get?_adopt (t : Table) (x : Adoption) (n : Nat) :
    (t.adopt x).get? n = if x.target = n then (t.get? n).map x.onto else t.get? n :=
  get?_modify t x.target n x.onto

theorem get?_foldl_adopt_of_forall_ne {xs : List Adoption} {n : Nat} (h : ∀ x ∈ xs, x.target ≠ n) :
    (xs.foldl adopt t).get? n = t.get? n := by
  induction xs generalizing t with
  | nil => rfl
  | cons x xs ih =>
    obtain ⟨hx, hxs⟩ := List.forall_mem_cons.mp h
    rw [List.foldl_cons, ih hxs, get?_adopt, if_neg hx]

/-- Adoptions of a node that all say the same are as good as one of them. -/
theorem get?_foldl_adopt_of_mem {xs : List Adoption} {x : Adoption} (hx : x ∈ xs)
    (h : ∀ y ∈ xs, y.target = x.target → y = x) :
    (xs.foldl adopt t).get? x.target = (t.get? x.target).map x.onto := by
  induction xs generalizing t with
  | nil => cases hx
  | cons y ys ih =>
    obtain ⟨hy, hys⟩ := List.forall_mem_cons.mp h
    rw [List.foldl_cons]
    by_cases hmem : x ∈ ys
    · rw [ih hmem hys, get?_adopt]
      split
      · next htarget =>
        rw [hy htarget, Option.map_map]
        exact congrArg (Option.map · _) (funext x.onto_onto)
      · rfl
    · obtain rfl := (List.mem_cons.mp hx).resolve_right hmem
      rw [get?_foldl_adopt_of_forall_ne fun z hz htarget => hmem (hys z hz htarget ▸ hz), get?_adopt, if_pos rfl]

end Table

/-! ## Reconciled trees -/

namespace Tree

variable {old new : Tree}

/-- The node `n` of the new tree at `a` takes over the identity of the old node `o`: that stands at the same
address, under nodes of the same forms, and `n` is no leaf or says the same. -/
structure TakesIdentity (old new : Tree) (a : Address) (o n : Nat) : Prop where
  stands : old.at? a = some o
  sameForms : SameForms old new a
  counts : (∀ node, new.node? n = some node → node.kind.isLeaf = false) ∨
    old.table.content o = new.table.content n

/-- The node `n` of the new tree at `a` takes over the options of the old node `o` as well. -/
structure TakesOptions (old new : Tree) (a : Address) (o n : Nat) : Prop extends TakesIdentity old new a o n where
  content_eq : old.table.content o = new.table.content n

theorem TakesIdentity.exists_node? {a : Address} {o n : Nat} {node : Node} (h : TakesIdentity old new a o n)
    (hat : new.at? a = some n) (hnode : new.node? n = some node) : ∃ other, old.node? o = some other := by
  have hend := h.sameForms a.steps List.prefix_rfl
  simp only [tagAt?, hat, h.stands, Option.bind_some, Table.tag?] at hend
  rw [show new.table.get? n = some node from hnode] at hend
  obtain ⟨other, hother, -⟩ := Option.map_eq_some_iff.mp hend
  exact ⟨other, hother⟩

section Reconciled

variable [Hasher]

/-- No node of the one tree has the digest of a node of the other that says something else. -/
def CollisionFree (old new : Tree) : Prop :=
  ∀ o < old.table.size, ∀ n < new.table.size,
    (old.table.content o).digest = (new.table.content n).digest → old.table.content o = new.table.content n

instance (old new : Tree) : Decidable (old.CollisionFree new) :=
  inferInstanceAs (Decidable (∀ o < old.table.size, ∀ n < new.table.size, _ → _))

theorem number_eq_of_content (ho : old.table.Ordered) (hn : new.table.Ordered) {o n : Nat} {a b : Node}
    (ha : old.table.get? o = some a) (hb : new.table.get? n = some b)
    (h : old.table.content o = new.table.content n) :
    (old.table.classes.number o == new.table.classes.number n) = true := by
  rw [beq_iff_eq, Table.number_classes_eq_iff ho hn ha hb, h]

theorem CollisionFree.tells (h : old.CollisionFree new) (ho : old.table.Ordered) (hn : new.table.Ordered) :
    old.table.Tells (fun o n => old.table.classes.number o == new.table.classes.number n) new.table := by
  intro o n a b ha hb
  refine ⟨fun heq => ?_, number_eq_of_content ho hn ha hb⟩
  rw [beq_iff_eq, Table.number_classes_eq_iff ho hn ha hb] at heq
  exact h o (Array.getElem?_eq_some_iff.mp ha).1 n (Array.getElem?_eq_some_iff.mp hb).1 heq

theorem mem_adoptions_iff (ho : old.table.Ordered) (hn : new.table.Ordered) (hfree : old.CollisionFree new)
    {x : Adoption} : x ∈ old.adoptions new ↔ ∃ (a : Address) (o n : Nat) (node : Node), new.at? a = some n ∧
      old.node? o = some node ∧ TakesIdentity old new a o n ∧ x = old.table.adoptionOf new.table o n node := by
  simp only [adoptions, List.mem_flatMap, Prod.exists, mem_zip_iff,
    Table.mem_adoptions_iff ho hn (hfree.tells ho hn)]
  constructor
  · rintro ⟨o, n, ⟨i, hio, hin⟩, steps, o', n', node, other, hso, hsn, hnode, hother, hforms, hleaf, rfl⟩
    refine ⟨⟨i, steps⟩, o', n', node, at?_eq_some.mpr ⟨n, hin, hsn⟩, hnode,
      ⟨at?_eq_some.mpr ⟨o, hio, hso⟩, (sameForms_iff hio hin).mpr hforms, ?_⟩, rfl⟩
    cases h : other.kind.isLeaf with
    | false =>
      refine .inl fun node hnode => ?_
      cases hother.symm.trans hnode
      exact h
    | true => exact .inr (hleaf h)
  · rintro ⟨a, o', n', node, hat, hnode, htakes, rfl⟩
    obtain ⟨n, hin, hsn⟩ := at?_eq_some.mp hat
    obtain ⟨o, hio, hso⟩ := at?_eq_some.mp htakes.stands
    have hforms := (sameForms_iff hio hin).mp htakes.sameForms
    have hend := hforms a.steps List.prefix_rfl
    simp only [hso, hsn, Option.bind_some, Table.tag?] at hend
    rw [show old.table.get? o' = some node from hnode] at hend
    obtain ⟨other, hother, -⟩ := Option.map_eq_some_iff.mp hend.symm
    refine ⟨o, n, ⟨a.root, hio, hin⟩, a.steps, o', n', node, other, hso, hsn, hnode, hother, hforms, ?_, rfl⟩
    intro hleaf
    refine htakes.counts.resolve_left fun h => ?_
    rw [h other hother] at hleaf
    cases hleaf

/-- A node that takes over an identity does so from the one node at its address, and from no other. -/
theorem reconcile_node?_of_takes (ho : old.table.Ordered) (hn : new.table.Ordered) (hu : new.Unshared)
    (hfree : old.CollisionFree new) {a : Address} {o n : Nat} {other : Node} (hat : new.at? a = some n)
    (hother : old.node? o = some other) (htakes : TakesIdentity old new a o n) :
    (old.reconcile new).1.node? n =
      (new.node? n).map (old.table.adoptionOf new.table o n other).onto := by
  have hmem := (mem_adoptions_iff ho hn hfree).mpr ⟨a, o, n, other, hat, hother, htakes, rfl⟩
  refine Table.get?_foldl_adopt_of_mem (t := new.table) hmem fun y hy htarget => ?_
  obtain ⟨a', o', n', other', hat', hother', htakes', rfl⟩ := (mem_adoptions_iff ho hn hfree).mp hy
  obtain rfl : n' = n := htarget
  obtain rfl := hu a a' n' hat hat'
  cases htakes.stands.symm.trans htakes'.stands
  cases hother.symm.trans hother'
  rfl

theorem reconcile_node?_of_not_takes (ho : old.table.Ordered) (hn : new.table.Ordered) (hu : new.Unshared)
    (hfree : old.CollisionFree new) {a : Address} {n : Nat} (hat : new.at? a = some n)
    (htakes : ∀ o, ¬ TakesIdentity old new a o n) :
    (old.reconcile new).1.node? n = new.node? n := by
  refine Table.get?_foldl_adopt_of_forall_ne (t := new.table) fun y hy htarget => ?_
  obtain ⟨a', o', n', other', hat', -, htakes', rfl⟩ := (mem_adoptions_iff ho hn hfree).mp hy
  obtain rfl : n' = n := htarget
  obtain rfl := hu a a' n' hat hat'
  exact htakes o' htakes'

/-- A node of the reconciled tree takes over the identity of the old node at its address exactly if the nodes
on the way have the same forms and it is no leaf or says the same, and the options exactly if it says the
same; apart from that it is as it was. -/
theorem reconcile_node_iff (ho : old.table.Ordered) (hn : new.table.Ordered) (hu : new.Unshared)
    (hfree : old.CollisionFree new) {a : Address} {n : Nat} {node : Node} (hat : new.at? a = some n)
    (hnode : new.node? n = some node) :
    ∃ node', (old.reconcile new).1.node? n = some node' ∧
      (∀ o other, TakesIdentity old new a o n → old.node? o = some other → node'.identity = other.identity) ∧
      ((∀ o, ¬ TakesIdentity old new a o n) → node'.identity = node.identity) ∧
      (∀ o other, TakesOptions old new a o n → old.node? o = some other → node'.options = other.options) ∧
      ((∀ o, ¬ TakesOptions old new a o n) → node'.options = node.options) ∧
      node'.span = node.span ∧ node'.kind = node.kind ∧ node'.comment = node.comment := by
  by_cases h : ∃ o, TakesIdentity old new a o n
  · obtain ⟨o, htakes⟩ := h
    obtain ⟨other, hother⟩ := htakes.exists_node? hat hnode
    have hres := reconcile_node?_of_takes ho hn hu hfree hat hother htakes
    rw [hnode, Option.map_some] at hres
    have unique : ∀ o' other', old.at? a = some o' → old.node? o' = some other' → other' = other := by
      intro o' other' hat' hother'
      cases htakes.stands.symm.trans hat'
      cases hother.symm.trans hother'
      rfl
    refine ⟨_, hres, ?_, ?_, ?_, ?_, rfl, rfl, rfl⟩
    · intro o' other' htakes' hother'
      rw [unique o' other' htakes'.stands hother']
      rfl
    · intro hnone
      exact absurd htakes (hnone o)
    · intro o' other' htakes' hother'
      rw [unique o' other' htakes'.stands hother']
      cases htakes.stands.symm.trans htakes'.stands
      simp [Adoption.onto, Table.adoptionOf, htakes'.content_eq]
    · intro hnone
      have hne : old.table.content o ≠ new.table.content n := fun heq => hnone o ⟨htakes, heq⟩
      simp [Adoption.onto, Table.adoptionOf, hne]
  · have hnone := not_exists.mp h
    have hres := reconcile_node?_of_not_takes ho hn hu hfree hat hnone
    rw [hnode] at hres
    refine ⟨node, hres, ?_, fun _ => rfl, ?_, fun _ => rfl, rfl, rfl, rfl⟩
    · intro o other htakes
      exact absurd htakes (hnone o)
    · intro o other htakes
      exact absurd htakes.toTakesIdentity (hnone o)

end Reconciled

/-- The forest of one application to an argument, with identities from `serial` on. -/
def ofCall (serial : Nat) (argument : String) : Tree :=
  let head := (Builder.start serial).addLiteral (.empty .zero) "f" "symbol"
  let leaves := head.addLiteral (.empty .zero) argument "symbol"
  let call := leaves.push (.empty .zero) (.application 0 [1]) (Options.labelled ("f of " ++ argument))
  ofTable call.table [2] defaultDepth

theorem ordered_ofCall (serial : Nat) (argument : String) : (ofCall serial argument).table.Ordered := by
  refine ((Table.ordered_empty.push ?_).push ?_).push ?_
  all_goals simp [Kind.children, Kind.fields, Field.nodes, Table.size, Table.push, Table.empty]

/-- An application whose argument has changed takes over the identity, but not the label. -/
theorem reconcile_node_iff_ofCall : ∃ node', ((ofCall 0 "a").reconcile (ofCall 3 "b")).1.node? 2 = some node' ∧
    node'.identity = ⟨2⟩ ∧ node'.options = Options.labelled "f of b" := by
  have hu : (ofCall 3 "b").Unshared := unshared_of_nodup (by decide)
  have hfree : (ofCall 0 "a").CollisionFree (ofCall 3 "b") := by decide +kernel
  obtain ⟨node', hnode', hidentity, -, -, hoptions, -⟩ :=
    reconcile_node_iff (ordered_ofCall 0 "a") (ordered_ofCall 3 "b") hu hfree (a := ⟨0, []⟩) (n := 2) rfl rfl
  have htakes : TakesIdentity (ofCall 0 "a") (ofCall 3 "b") ⟨0, []⟩ 2 2 := by
    refine ⟨rfl, fun way hway => ?_, .inl fun node hnode => ?_⟩
    · obtain rfl := List.prefix_nil.mp hway
      rfl
    · cases hnode
      rfl
  have hcontent : (ofCall 0 "a").table.content 2 ≠ (ofCall 3 "b").table.content 2 := by decide +kernel
  refine ⟨node', hnode', hidentity 2 _ htakes rfl, hoptions fun o htakes' => ?_⟩
  cases htakes.stands.symm.trans htakes'.stands
  exact hcontent htakes'.content_eq

end Tree

end StructuralEditor
