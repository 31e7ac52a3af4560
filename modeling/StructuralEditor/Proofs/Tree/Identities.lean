import StructuralEditor.Proofs.Tree.Reconciliation

/-!
# Identities through reconciliation

* `Table.SameKinds`, `Tree.sameKinds_reconcile` : a reconciled tree has the forms, texts and children of the new
  one, so that addresses and contents are the same in both;
* `Tree.Identified` : no two nodes have the same identity, and all identities were minted before a serial;
* `Tree.identity_eq_iff` : of the nodes that say the same as an old one, just the one at its address, under
  nodes of the same forms, has its identity.
-/

namespace StructuralEditor

namespace Table

variable {t u : Table}

/-- The nodes have the same forms, scalar texts and children. -/
def SameKinds (t u : Table) : Prop := ∀ id, (t.get? id).map (·.kind) = (u.get? id).map (·.kind)

theorem SameKinds.exists_get? (h : SameKinds t u) {id : Nat} {node : Node} (hnode : t.get? id = some node) :
    ∃ node', u.get? id = some node' ∧ node'.kind = node.kind := by
  have hid := h id
  rw [hnode, Option.map_some] at hid
  exact Option.map_eq_some_iff.mp hid.symm

theorem SameKinds.child?_eq (h : SameKinds t u) : t.child? = u.child? := by
  funext id s
  have hkind : ∀ t : Table, t.child? id s = ((t.get? id).map (·.kind)).bind (·.child? s) := by
    intro t
    rw [child?, Option.bind_map]
    rfl
  rw [hkind, h id, ← hkind]

theorem SameKinds.below?_eq (h : SameKinds t u) : t.below? = u.below? := by
  funext id steps
  induction steps generalizing id with
  | nil => rfl
  | cons s rest ih => simp only [below?, h.child?_eq, ih]

theorem SameKinds.tag?_eq (h : SameKinds t u) : t.tag? = u.tag? := by
  funext id
  have hkind : ∀ t : Table, t.tag? id = ((t.get? id).map (·.kind)).map Kind.tag := by
    intro t
    rw [tag?, Option.map_map]
    rfl
  rw [hkind, h id, ← hkind]

theorem SameKinds.content_eq (h : SameKinds t u) : t.content = u.content := by
  funext id
  induction id using Nat.strongRecOn with
  | ind id ih =>
    have hid := h id
    unfold content
    cases hnode : t.get? id with
    | none =>
      rw [hnode] at hid
      rw [Option.map_eq_none_iff.mp hid.symm]
    | some node =>
      obtain ⟨node', hnode', hkind⟩ := h.exists_get? hnode
      rw [hnode']
      simp only [hkind]
      refine congrArg Content.mk (Kind.map_congr fun child _ => ?_)
      by_cases hlt : child < id
      · rw [if_pos hlt, if_pos hlt, ih child hlt]
      · rw [if_neg hlt, if_neg hlt]

theorem sameKinds_adopt (t : Table) (x : Adoption) : SameKinds (t.adopt x) t := by
  intro id
  rw [get?_adopt]
  split
  · rw [Option.map_map]
    rfl
  · rfl

theorem sameKinds_foldl_adopt (xs : List Adoption) (t : Table) : SameKinds (xs.foldl adopt t) t := by
  induction xs generalizing t with
  | nil => exact fun _ => rfl
  | cons x xs ih => exact fun id => (ih (t.adopt x) id).trans (sameKinds_adopt t x id)

end Table

namespace Tree

variable [Hasher] {old new : Tree}

theorem sameKinds_reconcile (old new : Tree) : Table.SameKinds (old.reconcile new).1.table new.table :=
  Table.sameKinds_foldl_adopt _ _

theorem at?_reconcile (old new : Tree) : (old.reconcile new).1.at? = new.at? := by
  funext a
  unfold at?
  rw [(sameKinds_reconcile old new).below?_eq]
  rfl

theorem sameForms_reconcile (t old new : Tree) (a : Address) :
    SameForms t (old.reconcile new).1 a ↔ SameForms t new a := by
  simp only [SameForms, tagAt?, at?_reconcile, (sameKinds_reconcile old new).tag?_eq]

/-- A node of the reconciled tree has the identity of the old node that it takes it over from, or its own. -/
theorem reconcile_identity_cases (ho : old.table.Ordered) (hn : new.table.Ordered) (hu : new.Unshared)
    (hfree : old.CollisionFree new) {a : Address} {n : Nat} {node : Node} (hat : new.at? a = some n)
    (hnode : (old.reconcile new).1.node? n = some node) :
    (∃ o other, TakesIdentity old new a o n ∧ old.node? o = some other ∧ node.identity = other.identity) ∨
      (∀ o, ¬ TakesIdentity old new a o n) ∧ new.node? n = some node := by
  obtain ⟨own, hown, -⟩ := (sameKinds_reconcile old new).exists_get? hnode
  by_cases h : ∃ o, TakesIdentity old new a o n
  · left
    obtain ⟨o, htakes⟩ := h
    obtain ⟨other, hother⟩ := htakes.exists_node? hat hown
    have hres := reconcile_node?_of_takes ho hn hu hfree hat hother htakes
    rw [hnode, show new.node? n = some own from hown, Option.map_some] at hres
    cases hres
    exact ⟨o, other, htakes, hother, rfl⟩
  · right
    have hnone := not_exists.mp h
    rw [← reconcile_node?_of_not_takes ho hn hu hfree hat hnone]
    exact ⟨hnone, hnode⟩

/-! ## Distinct identities -/

/-- No two nodes have the same identity, and all identities were minted before `serial`. -/
structure Identified (t : Tree) (serial : Nat) : Prop where
  distinct : ∀ {a a' : Address} {id id' : Nat} {node node' : Node}, t.at? a = some id → t.at? a' = some id' →
    t.node? id = some node → t.node? id' = some node' → node.identity = node'.identity → a = a'
  minted : ∀ {a : Address} {id : Nat} {node : Node}, t.at? a = some id → t.node? id = some node →
    node.identity.serial < serial

/-- Of the nodes that say the same as an old one, just the one at its address, under nodes of the same forms, has
its identity. -/
theorem identity_eq_iff {serial : Nat} (ho : old.table.Ordered) (hn : new.table.Ordered) (hu : new.Unshared)
    (hfree : old.CollisionFree new) (hid : old.Identified serial)
    (hfresh : ∀ id node, new.node? id = some node → node.identity = ⟨serial + id⟩) {a a' : Address} {o n : Nat}
    {other node : Node} (hat : old.at? a = some o) (hother : old.node? o = some other) (hat' : new.at? a' = some n)
    (hnode : (old.reconcile new).1.node? n = some node) (hcontent : old.table.content o = new.table.content n) :
    node.identity = other.identity ↔ a' = a ∧ SameForms old new a := by
  constructor
  · intro heq
    rcases reconcile_identity_cases ho hn hu hfree hat' hnode with ⟨o', other', htakes, hother', h⟩ | ⟨-, hown⟩
    · obtain rfl := hid.distinct htakes.stands hat hother' hother (h.symm.trans heq)
      exact ⟨rfl, htakes.sameForms⟩
    · have hlt := hid.minted hat hother
      rw [← heq, hfresh n node hown] at hlt
      exact absurd hlt (Nat.not_lt.mpr (Nat.le_add_right serial n))
  · rintro ⟨rfl, hforms⟩
    have htakes : TakesIdentity old new a' o n := ⟨hat, hforms, .inr hcontent⟩
    rcases reconcile_identity_cases ho hn hu hfree hat' hnode with ⟨o', other', htakes', hother', h⟩ | ⟨hnone, -⟩
    · cases hat.symm.trans htakes'.stands
      cases hother.symm.trans hother'
      exact h
    · exact absurd htakes (hnone o)

/-- A node that says the same as the old one at its address, under nodes of the same forms, has its options. -/
theorem options_eq_of_sameForms (ho : old.table.Ordered) (hn : new.table.Ordered) (hu : new.Unshared)
    (hfree : old.CollisionFree new) {a : Address} {o n : Nat} {other node : Node} (hat : old.at? a = some o)
    (hother : old.node? o = some other)
    (hat' : new.at? a = some n) (hnode : (old.reconcile new).1.node? n = some node)
    (hcontent : old.table.content o = new.table.content n) (hforms : SameForms old new a) :
    node.options = other.options := by
  rw [reconcile_node?_of_takes ho hn hu hfree hat' hother ⟨hat, hforms, .inr hcontent⟩] at hnode
  obtain ⟨own, -, rfl⟩ := Option.map_eq_some_iff.mp hnode
  show (if old.table.content o = new.table.content n then some other.options else none).getD own.options = _
  rw [if_pos hcontent, Option.getD_some]

end Tree

end StructuralEditor
