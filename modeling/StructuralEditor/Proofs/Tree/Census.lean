import Mathlib.Data.List.Flatten
import Mathlib.Data.List.Perm.Basic
import StructuralEditor.Proofs.Tree.Identities
import StructuralEditor.Proofs.Tree.Layout

/-!
# The nodes of a tree and their identities

* `Tree.Built` : a tree as a builder finishes it; `Tree.Built.mem_nodes_iff`, `Tree.Built.nodup_nodes` : its nodes
  are those with an address, each of them once if none is shared;
* `Tree.identities` : the identities in document order; `Tree.Built.byIdentity?_eq_some` : what is found by an
  identity has it;
* `Table.map_target_adoptions_sublist`, `Table.exists_donors` : below a pair no node takes anything over twice or
  gives it away twice, whatever the test that tells nodes apart;
* `Tree.IdentitiesKept`, `Tree.identitiesKept_reconcile` : reconciliation neither duplicates nor loses an identity.
-/

namespace StructuralEditor

/-! ## Lists -/

section Lists

variable {α β γ : Type}

/-- Lists of distinct members with nothing in common, laid end to end. -/
theorem nodup_flatMap_of_index {as : List α} {f : α → List β} (hf : ∀ a ∈ as, (f a).Nodup)
    (h : ∀ (i j : Nat) a b c, as[i]? = some a → as[j]? = some b → c ∈ f a → c ∈ f b → i = j) :
    (as.flatMap f).Nodup := by
  refine List.nodup_flatMap.mpr ⟨hf, List.pairwise_iff_getElem.mpr fun i j hi hj hij c hci hcj => ?_⟩
  have := h i j _ _ c (List.getElem?_eq_getElem hi) (List.getElem?_eq_getElem hj) hci hcj
  omega

theorem map_filterMap_sublist {f : α → Option β} {g : β → γ} {h : α → γ} (hf : ∀ a b, f a = some b → g b = h a)
    (as : List α) : ((as.filterMap f).map g).Sublist (as.map h) := by
  induction as with
  | nil => exact List.nil_sublist _
  | cons a as ih =>
    cases ha : f a with
    | none =>
      rw [List.filterMap_cons_none ha]
      exact ih.cons _
    | some b =>
      rw [List.filterMap_cons_some ha, List.map_cons, hf a b ha]
      exact ih.cons_cons _

theorem map_snd_zip_sublist (as : List α) (bs : List β) : ((as.zip bs).map Prod.snd).Sublist bs := by
  induction as generalizing bs with
  | nil => exact List.nil_sublist _
  | cons a as ih =>
    cases bs with
    | nil => exact List.nil_sublist _
    | cons b bs => exact (ih bs).cons_cons b

theorem map_fst_zip_sublist (as : List α) (bs : List β) : ((as.zip bs).map Prod.fst).Sublist as := by
  induction as generalizing bs with
  | nil => exact List.nil_sublist _
  | cons a as ih =>
    cases bs with
    | nil => exact List.nil_sublist _
    | cons b bs => exact (ih bs).cons_cons a

/-- Members that belong one by one to some of a list, laid end to end, belong to some of those lists laid end to end. -/
theorem exists_forall₂_flatMap {R : β → γ → Prop} {f : α → List β} {g : α → List γ} (as : List α)
    (h : ∀ a ∈ as, ∃ cs, List.Forall₂ R (f a) cs ∧ cs.Sublist (g a)) :
    ∃ cs, List.Forall₂ R (as.flatMap f) cs ∧ cs.Sublist (as.flatMap g) := by
  induction as with
  | nil => exact ⟨[], .nil, List.nil_sublist _⟩
  | cons a as ih =>
    obtain ⟨ha, has⟩ := List.forall_mem_cons.mp h
    obtain ⟨cs, hcs, hsub⟩ := ha
    obtain ⟨ds, hds, hsub'⟩ := ih has
    exact ⟨cs ++ ds, List.rel_append hcs hds, hsub.append hsub'⟩

theorem forall₂_filterMap {R : β → γ → Prop} {f : α → Option β} {g : α → γ} (hf : ∀ a b, f a = some b → R b (g a))
    (as : List α) : ∃ cs, List.Forall₂ R (as.filterMap f) cs ∧ cs.Sublist (as.map g) := by
  induction as with
  | nil => exact ⟨[], .nil, List.nil_sublist _⟩
  | cons a as ih =>
    obtain ⟨cs, hcs, hsub⟩ := ih
    cases ha : f a with
    | none =>
      rw [List.filterMap_cons_none ha]
      exact ⟨cs, hcs, hsub.cons _⟩
    | some b =>
      rw [List.filterMap_cons_some ha]
      exact ⟨g a :: cs, .cons (hf a b ha) hcs, hsub.cons_cons _⟩

end Lists

/-! ## Below a node -/

namespace Kind

variable {α β : Type}

theorem nodup_flatMap_children {k : Kind α} {f : α → List β} (hf : ∀ a ∈ k.children, (f a).Nodup)
    (h : ∀ s s' a b c, k.child? s = some a → k.child? s' = some b → c ∈ f a → c ∈ f b → s = s') :
    (k.children.flatMap f).Nodup := by
  have hstep : ∀ {i j : Nat} {field : Field α} {a : α}, k.fields[i]? = some field → field.nodes[j]? = some a →
      k.child? ⟨i, j⟩ = some a := by
    intro i j field a hfield ha
    exact Option.bind_eq_some_iff.mpr ⟨field, hfield, ha⟩
  rw [children, List.flatMap_assoc]
  refine nodup_flatMap_of_index (fun field hfield => ?_) fun i i' field field' c hi hi' hc hc' => ?_
  · obtain ⟨i, hi⟩ := List.mem_iff_getElem?.mp hfield
    refine nodup_flatMap_of_index (fun a ha => ?_) fun j j' a b c hj hj' hc hc' => ?_
    · exact hf a (List.mem_flatMap.mpr ⟨field, hfield, ha⟩)
    · exact congrArg Step.index (h _ _ a b c (hstep hi hj) (hstep hi hj') hc hc')
  · obtain ⟨a, ha, hc⟩ := List.mem_flatMap.mp hc
    obtain ⟨b, hb, hc'⟩ := List.mem_flatMap.mp hc'
    obtain ⟨j, hj⟩ := List.mem_iff_getElem?.mp ha
    obtain ⟨j', hj'⟩ := List.mem_iff_getElem?.mp hb
    exact congrArg Step.field (h _ _ a b c (hstep hi hj) (hstep hi' hj') hc hc')

theorem map_snd_pairs_sublist (k : Kind α) (l : Kind β) : ((k.pairs l).map Prod.snd).Sublist l.children := by
  have h : ((k.pairs l).map Prod.snd).Sublist (((k.fields.zip l.fields).map Prod.snd).flatMap Field.nodes) := by
    rw [pairs, List.map_flatMap, List.flatMap_map]
    exact .flatMap_right _ fun p _ => map_snd_zip_sublist _ _
  exact h.trans ((map_snd_zip_sublist _ _).flatMap _)

theorem map_fst_pairs_sublist (k : Kind α) (l : Kind β) : ((k.pairs l).map Prod.fst).Sublist k.children := by
  have h : ((k.pairs l).map Prod.fst).Sublist (((k.fields.zip l.fields).map Prod.fst).flatMap Field.nodes) := by
    rw [pairs, List.map_flatMap, List.flatMap_map]
    exact .flatMap_right _ fun p _ => map_fst_zip_sublist _ _
  exact h.trans ((map_fst_zip_sublist _ _).flatMap _)

end Kind

/-- What is taken over is the identity of the node `d`, and its options if any. -/
def Adoption.IsOf (old : Table) (x : Adoption) (d : Nat) : Prop :=
  ∃ a, old.get? d = some a ∧ x.identity = a.identity ∧ (x.options = none ∨ x.options = some a.options)

namespace Table

variable {t u old new : Table} {same : Nat → Nat → Bool}

theorem exists_get?_iff_lt {id : Nat} : (∃ node, t.get? id = some node) ↔ id < t.size := by
  rw [← Option.isSome_iff_exists, get?, isSome_getElem?]
  rfl

theorem descendants_eq_cons (ho : t.Ordered) {id : Nat} (hid : id < t.size) :
    t.descendants id = id :: (t.children id).flatMap t.descendants := by
  obtain ⟨node, hnode⟩ := exists_get?_iff_lt.mpr hid
  rw [descendants_of_get? ho hnode, children, hnode]

theorem mem_descendants_iff (ho : t.Ordered) {id x : Nat} (hid : id < t.size) :
    x ∈ t.descendants id ↔ ∃ steps, t.below? id steps = some x := by
  induction id using Nat.strongRecOn with
  | ind id ih =>
    obtain ⟨node, hnode⟩ := exists_get?_iff_lt.mpr hid
    rw [descendants_of_get? ho hnode, List.mem_cons, List.mem_flatMap]
    have hbelow : ∀ {child : Nat} {s : Step}, t.child? id s = some child →
        (x ∈ t.descendants child ↔ ∃ steps, t.below? child steps = some x) := by
      intro child s hs
      exact ih child (lt_of_child? ho hs) (exists_get?_iff_lt.mp (exists_get?_of_child? ho hs))
    constructor
    · rintro (rfl | ⟨child, hchild, hx⟩)
      · exact ⟨[], rfl⟩
      · obtain ⟨s, hs⟩ := Kind.mem_children_iff.mp hchild
        rw [← child?_of_get? hnode] at hs
        obtain ⟨steps, hsteps⟩ := (hbelow hs).mp hx
        exact ⟨s :: steps, below?_cons_eq_some.mpr ⟨child, hs, hsteps⟩⟩
    · rintro ⟨steps, hx⟩
      cases steps with
      | nil =>
        cases hx
        exact .inl rfl
      | cons s steps =>
        obtain ⟨child, hs, hsteps⟩ := below?_cons_eq_some.mp hx
        have hchild := child?_of_get? hnode s
        rw [hs] at hchild
        exact .inr ⟨child, Kind.mem_children_iff.mpr ⟨s, hchild.symm⟩, (hbelow hs).mpr ⟨steps, hsteps⟩⟩

/-- Everything below a node stands there once, if different steps lead to different nodes. -/
theorem nodup_descendants (ho : t.Ordered) {id : Nat} (hid : id < t.size)
    (h : ∀ steps steps' x, t.below? id steps = some x → t.below? id steps' = some x → steps = steps') :
    (t.descendants id).Nodup := by
  induction id using Nat.strongRecOn with
  | ind id ih =>
    obtain ⟨node, hnode⟩ := exists_get?_iff_lt.mpr hid
    have hmem : ∀ {child x : Nat} {s : Step}, node.kind.child? s = some child → x ∈ t.descendants child →
        ∃ steps, t.below? id (s :: steps) = some x := by
      intro child x s hs hx
      rw [← child?_of_get? hnode] at hs
      obtain ⟨steps, hsteps⟩ :=
        (mem_descendants_iff ho (exists_get?_iff_lt.mp (exists_get?_of_child? ho hs))).mp hx
      exact ⟨steps, below?_cons_eq_some.mpr ⟨child, hs, hsteps⟩⟩
    rw [descendants_of_get? ho hnode, List.nodup_cons]
    constructor
    · intro hself
      obtain ⟨child, hchild, hx⟩ := List.mem_flatMap.mp hself
      obtain ⟨s, hs⟩ := Kind.mem_children_iff.mp hchild
      obtain ⟨steps, hsteps⟩ := hmem hs hx
      cases h (s :: steps) [] id hsteps rfl
    · refine Kind.nodup_flatMap_children (fun child hchild => ?_) fun s s' a b x hs hs' hx hx' => ?_
      · obtain ⟨s, hs⟩ := Kind.mem_children_iff.mp hchild
        rw [← child?_of_get? hnode] at hs
        refine ih child (lt_of_child? ho hs) (exists_get?_iff_lt.mp (exists_get?_of_child? ho hs)) ?_
        intro steps steps' x hsteps hsteps'
        have hsame := h (s :: steps) (s :: steps') x (below?_cons_eq_some.mpr ⟨child, hs, hsteps⟩)
          (below?_cons_eq_some.mpr ⟨child, hs, hsteps'⟩)
        exact (List.cons.inj hsame).2
      · obtain ⟨steps, hsteps⟩ := hmem hs hx
        obtain ⟨steps', hsteps'⟩ := hmem hs' hx'
        exact (List.cons.inj (h _ _ x hsteps hsteps')).1

theorem map_id_visits (ho : t.Ordered) {v : Visit} (hv : v.id < t.size) :
    (t.visits v).map (·.id) = t.descendants v.id := by
  induction hid : v.id using Nat.strongRecOn generalizing v with
  | ind id ih =>
    subst hid
    rw [visits, descendants, if_pos hv, List.map_cons, List.map_flatMap]
    congr 1
    have hchildren : t.children v.id = (t.children v.id).zipIdx.map Prod.fst := by simp
    conv_rhs => rw [hchildren, List.flatMap_map]
    refine List.flatMap_congr ?_
    rintro ⟨child, index⟩ hmem
    have hlt : child < v.id := ho v.id child (List.fst_mem_of_mem_zipIdx hmem)
    simp only [if_pos hlt]
    exact ih child hlt (Nat.lt_trans hlt hv) rfl

theorem map_id_walk (ho : t.Ordered) {roots : List Nat} (h : ∀ root ∈ roots, root < t.size) :
    (t.walk roots).map (·.id) = roots.flatMap t.descendants := by
  have hroots : roots = roots.zipIdx.map Prod.fst := by simp
  conv_rhs => rw [hroots, List.flatMap_map]
  rw [walk, List.map_flatMap]
  refine List.flatMap_congr ?_
  rintro ⟨root, index⟩ hmem
  exact map_id_visits ho (h root (List.fst_mem_of_mem_zipIdx hmem))

/-- The nodes below `n` that take something over from those below `o`, in document order and each once. -/
theorem map_target_adoptions_sublist (hn : new.Ordered) (o n : Nat) :
    ((old.adoptions same new o n).map (·.target)).Sublist (new.descendants n) := by
  induction n using Nat.strongRecOn generalizing o with
  | ind n ih =>
    unfold adoptions
    split
    · next a b ha hb =>
      split
      · refine (map_filterMap_sublist (h := Prod.snd) ?_ _).trans (map_snd_zip_sublist _ _)
        rintro ⟨o, n⟩ x hx
        obtain ⟨node, -, rfl⟩ := Option.map_eq_some_iff.mp hx
        rfl
      · split
        · exact List.nil_sublist _
        · rw [descendants_of_get? hn hb, List.map_cons, List.map_flatMap]
          refine List.Sublist.cons_cons n (List.Sublist.trans ?_ ((Kind.map_snd_pairs_sublist a.kind b.kind).flatMap _))
          rw [List.flatMap_map]
          refine List.Sublist.flatMap_right _ ?_
          rintro ⟨o', n'⟩ -
          by_cases hlt : n' < n
          · simp only [if_pos hlt]
            exact ih n' hlt o'
          · simp only [if_neg hlt]
            exact List.nil_sublist _
    · exact List.nil_sublist _

/-- The nodes below `o` that give something away to those below `n`, in document order and each once. -/
theorem exists_donors (ho : old.Ordered) (o n : Nat) :
    ∃ ds, List.Forall₂ (Adoption.IsOf old) (old.adoptions same new o n) ds ∧ ds.Sublist (old.descendants o) := by
  induction n using Nat.strongRecOn generalizing o with
  | ind n ih =>
    unfold adoptions
    split
    · next a b ha hb =>
      split
      · obtain ⟨ds, hds, hsub⟩ := forall₂_filterMap (R := Adoption.IsOf old) (g := Prod.fst)
          (f := fun p => old.adoptWhole p.1 p.2) (by
            rintro p x hx
            obtain ⟨node, hnode, rfl⟩ := Option.map_eq_some_iff.mp hx
            exact ⟨node, hnode, rfl, .inr rfl⟩) ((old.descendants o).zip (new.descendants n))
        exact ⟨ds, hds, hsub.trans (map_fst_zip_sublist _ _)⟩
      · split
        · exact ⟨[], .nil, List.nil_sublist _⟩
        · obtain ⟨ds, hds, hsub⟩ := exists_forall₂_flatMap (R := Adoption.IsOf old)
            (f := fun p => if p.2 < n then old.adoptions same new p.1 p.2 else [])
            (g := fun p => old.descendants p.1) (a.kind.pairs b.kind) (by
              rintro ⟨o', n'⟩ -
              by_cases hlt : n' < n
              · simp only [if_pos hlt]
                exact ih n' hlt o'
              · simp only [if_neg hlt]
                exact ⟨[], .nil, List.nil_sublist _⟩)
          refine ⟨o :: ds, .cons ⟨a, ha, rfl, .inl rfl⟩ hds, ?_⟩
          rw [descendants_of_get? ho ha]
          refine (hsub.trans ?_).cons_cons o
          rw [← List.flatMap_map]
          exact (Kind.map_fst_pairs_sublist a.kind b.kind).flatMap _
    · exact ⟨[], .nil, List.nil_sublist _⟩

theorem SameKinds.children_eq (h : SameKinds t u) : t.children = u.children := by
  funext id
  have hkind : ∀ t : Table, t.children id = (((t.get? id).map (·.kind)).map Kind.children).getD [] := by
    intro t
    rw [children]
    cases t.get? id <;> rfl
  rw [hkind, h id, ← hkind]

theorem SameKinds.lt_size_iff (h : SameKinds t u) (id : Nat) : id < t.size ↔ id < u.size := by
  have hkind : ∀ t : Table, id < t.size ↔ ((t.get? id).map (·.kind)).isSome := by
    intro t
    rw [Option.isSome_map, Option.isSome_iff_exists, exists_get?_iff_lt]
  rw [hkind, h id, ← hkind]

theorem SameKinds.size_eq (h : SameKinds t u) : t.size = u.size := by
  have hle := h.lt_size_iff
  exact Nat.le_antisymm (Nat.not_lt.mp fun hlt => Nat.lt_irrefl _ ((hle _).mp hlt))
    (Nat.not_lt.mp fun hlt => Nat.lt_irrefl _ ((hle _).mpr hlt))

theorem SameKinds.descendants_eq (h : SameKinds t u) : t.descendants = u.descendants := by
  funext id
  induction id using Nat.strongRecOn with
  | ind id ih =>
    rw [descendants, descendants, h.children_eq]
    simp only [h.lt_size_iff id]
    congr 2
    refine List.flatMap_congr fun child _ => ?_
    by_cases hlt : child < id
    · rw [if_pos hlt, if_pos hlt, ih child hlt]
    · rw [if_neg hlt, if_neg hlt]

end Table

namespace Layout

variable {t : Table}

theorem toList_order_foldl (l : Layout) (vs : List Visit) :
    (vs.foldl (record t) l).order.toList = l.order.toList ++ vs.map (·.id) := by
  induction vs generalizing l with
  | nil => simp
  | cons v vs ih =>
    rw [List.foldl_cons, ih]
    simp [record]

theorem byIdentity_foldl_eq_some {l : Layout} {vs : List Visit} {identity : Identity} {id : Nat}
    (h : (vs.foldl (record t) l).byIdentity[identity]? = some id) :
    l.byIdentity[identity]? = some id ∨
      ∃ v ∈ vs, v.id = id ∧ ∃ node, t.get? id = some node ∧ node.identity = identity := by
  induction vs generalizing l with
  | nil => exact .inl h
  | cons v vs ih =>
    rcases ih h with h | ⟨w, hw, hid, hnode⟩
    · unfold record at h
      cases hv : t.get? v.id with
      | none =>
        simp only [hv] at h
        exact .inl h
      | some node =>
        simp only [hv] at h
        rw [Std.HashMap.getElem?_insert] at h
        split at h
        · next heq =>
          cases h
          exact .inr ⟨v, List.mem_cons_self, rfl, node, hv, eq_of_beq heq⟩
        · exact .inl h
    · exact .inr ⟨w, List.mem_cons_of_mem v hw, hid, hnode⟩

end Layout

/-! ## Built trees -/

namespace Tree

variable {t old new : Tree}

/-- The tree is as a builder finishes it: every child is older than its parent, the roots are in the table, and
the layout is that of the forest. -/
structure Built (t : Tree) : Prop where
  ordered : t.table.Ordered
  roots_lt : ∀ root ∈ t.roots, root < t.table.size
  layout : t.layout = Layout.ofRoots t.table t.roots

theorem Built.withDepth (h : t.Built) (depth : Nat) : (t.withDepth depth).Built :=
  ⟨h.ordered, h.roots_lt, h.layout⟩

theorem Built.reconcile [Hasher] (h : new.Built) (old : Tree) : (old.reconcile new).1.Built where
  ordered := by
    intro id child hchild
    rw [(sameKinds_reconcile old new).children_eq] at hchild
    exact h.ordered id child hchild
  roots_lt := fun root hroot => ((sameKinds_reconcile old new).lt_size_iff root).mpr (h.roots_lt root hroot)
  layout := rfl

theorem collisionFree_reconcile [Hasher] {t old new : Tree} :
    t.CollisionFree (old.reconcile new).1 ↔ t.CollisionFree new := by
  have hkinds := sameKinds_reconcile old new
  rw [CollisionFree, CollisionFree, hkinds.content_eq, hkinds.size_eq]

theorem Built.nodes_eq (h : t.Built) : t.nodes = t.roots.flatMap t.table.descendants := by
  rw [nodes, h.layout, Layout.ofRoots, Layout.toList_order_foldl, Table.map_id_walk h.ordered h.roots_lt]
  rfl

theorem Built.nodes_reconcile [Hasher] (h : new.Built) (old : Tree) : (old.reconcile new).1.nodes = new.nodes := by
  rw [(h.reconcile old).nodes_eq, h.nodes_eq, (sameKinds_reconcile old new).descendants_eq]
  rfl

theorem Built.mem_nodes_iff (h : t.Built) {id : Nat} : id ∈ t.nodes ↔ ∃ a, t.at? a = some id := by
  rw [h.nodes_eq, List.mem_flatMap]
  constructor
  · rintro ⟨root, hroot, hid⟩
    obtain ⟨i, hi⟩ := List.mem_iff_getElem?.mp hroot
    obtain ⟨steps, hsteps⟩ := (Table.mem_descendants_iff h.ordered (h.roots_lt root hroot)).mp hid
    exact ⟨⟨i, steps⟩, at?_eq_some.mpr ⟨root, hi, hsteps⟩⟩
  · rintro ⟨a, hat⟩
    obtain ⟨root, hi, hsteps⟩ := at?_eq_some.mp hat
    have hroot := List.mem_of_getElem? hi
    exact ⟨root, hroot, (Table.mem_descendants_iff h.ordered (h.roots_lt root hroot)).mpr ⟨_, hsteps⟩⟩

theorem Built.exists_node? (h : t.Built) {id : Nat} (hid : id ∈ t.nodes) : ∃ node, t.node? id = some node := by
  obtain ⟨⟨i, steps⟩, hat⟩ := h.mem_nodes_iff.mp hid
  obtain ⟨root, hi, hsteps⟩ := at?_eq_some.mp hat
  cases steps using List.reverseRecOn with
  | nil =>
    cases hsteps
    exact Table.exists_get?_iff_lt.mpr (h.roots_lt id (List.mem_of_getElem? hi))
  | append_singleton steps s =>
    obtain ⟨above, -, hs⟩ := Table.below?_concat_eq_some.mp hsteps
    exact Table.exists_get?_of_child? h.ordered hs

theorem isSome_node?_iff {id : Nat} : (t.node? id).isSome = true ↔ id < t.table.size := by
  rw [Option.isSome_iff_exists]
  exact Table.exists_get?_iff_lt

theorem Built.nodup_nodes (h : t.Built) (hu : t.Unshared) : t.nodes.Nodup := by
  rw [h.nodes_eq]
  have hmem : ∀ {i root id : Nat}, t.roots[i]? = some root → id ∈ t.table.descendants root →
      ∃ steps, t.at? ⟨i, steps⟩ = some id := by
    intro i root id hi hid
    obtain ⟨steps, hsteps⟩ :=
      (Table.mem_descendants_iff h.ordered (h.roots_lt root (List.mem_of_getElem? hi))).mp hid
    exact ⟨steps, at?_eq_some.mpr ⟨root, hi, hsteps⟩⟩
  refine nodup_flatMap_of_index (fun root hroot => ?_) fun i j root root' id hi hj hid hid' => ?_
  · obtain ⟨i, hi⟩ := List.mem_iff_getElem?.mp hroot
    refine Table.nodup_descendants h.ordered (h.roots_lt root hroot) fun steps steps' x hx hx' => ?_
    exact congrArg Address.steps
      (hu ⟨i, steps⟩ ⟨i, steps'⟩ x (at?_eq_some.mpr ⟨root, hi, hx⟩) (at?_eq_some.mpr ⟨root, hi, hx'⟩))
  · obtain ⟨steps, hat⟩ := hmem hi hid
    obtain ⟨steps', hat'⟩ := hmem hj hid'
    exact congrArg Address.root (hu _ _ id hat hat')

/-! ## Identities -/

/-- The identity of a node; a foreign index has the default one. -/
def identity (t : Tree) (id : Nat) : Identity := ((t.node? id).map (·.identity)).getD default

def identities (t : Tree) : List Identity := t.nodes.map t.identity

theorem identity_of_node? {id : Nat} {node : Node} (h : t.node? id = some node) : t.identity id = node.identity := by
  rw [identity, h, Option.map_some, Option.getD_some]

theorem Built.map_identity_node? (h : t.Built) {id : Nat} (hid : id ∈ t.nodes) :
    (t.node? id).map (·.identity) = some (t.identity id) := by
  obtain ⟨node, hnode⟩ := h.exists_node? hid
  rw [identity_of_node? hnode, hnode, Option.map_some]

theorem Built.identities_reconcile [Hasher] (h : new.Built) (old : Tree) :
    (old.reconcile new).1.identities = new.nodes.map (old.reconcile new).1.identity := by
  rw [identities, h.nodes_reconcile old]

theorem mem_identities {id : Nat} (h : id ∈ t.nodes) : t.identity id ∈ t.identities :=
  List.mem_map_of_mem h

theorem Built.byIdentity?_eq_some (h : t.Built) {identity : Identity} {id : Nat}
    (hid : t.byIdentity? identity = some id) : id ∈ t.nodes ∧ t.identity id = identity := by
  rw [byIdentity?, h.layout] at hid
  rcases Layout.byIdentity_foldl_eq_some hid with hblank | ⟨v, hv, rfl, node, hnode, rfl⟩
  · simp [Layout.blank] at hblank
  · refine ⟨?_, identity_of_node? hnode⟩
    rw [h.nodes_eq, ← Table.map_id_walk h.ordered h.roots_lt]
    exact List.mem_map_of_mem hv

theorem Built.isSome_byIdentity? (h : t.Built) {id : Nat} (hid : id ∈ t.nodes) :
    (t.byIdentity? (t.identity id)).isSome := by
  obtain ⟨a, hat⟩ := h.mem_nodes_iff.mp hid
  obtain ⟨node, hnode⟩ := h.exists_node? hid
  rw [identity_of_node? hnode]
  exact Tree.isSome_byIdentity? h.ordered h.layout hat hnode

theorem Built.isSome_byIdentity?_iff (h : t.Built) {identity : Identity} :
    (t.byIdentity? identity).isSome = true ↔ identity ∈ t.identities := by
  constructor
  · intro hfound
    obtain ⟨id, hid⟩ := Option.isSome_iff_exists.mp hfound
    obtain ⟨hmem, rfl⟩ := h.byIdentity?_eq_some hid
    exact mem_identities hmem
  · intro hmem
    obtain ⟨id, hid, rfl⟩ := List.mem_map.mp hmem
    exact h.isSome_byIdentity? hid

/-! ## Reconciled trees -/

section Reconciled

variable [Hasher]

/-- The reconciled tree neither duplicates nor loses an identity, and counts what was taken over. -/
structure IdentitiesKept (old new : Tree) : Prop where
  distinct : (old.reconcile new).1.identities.Nodup
  own_or_old : ∀ id ∈ (old.reconcile new).1.nodes,
    (old.reconcile new).1.identity id = new.identity id ∨ (old.reconcile new).1.identity id ∈ old.identities
  once : ∀ identity ∈ old.identities, (old.reconcile new).1.identities.count identity ≤ 1
  found : ∀ id ∈ (old.reconcile new).1.nodes,
    (old.reconcile new).1.byIdentity? ((old.reconcile new).1.identity id) = some id
  dropped : ∀ identity ∈ old.identities, identity ∉ (old.reconcile new).1.identities →
    (old.reconcile new).1.byIdentity? identity = none
  adopted : (old.reconcile new).2.adopted = (old.reconcile new).1.identities.countP (· ∈ old.identities)
  total : (old.reconcile new).2.adopted + (old.reconcile new).2.fresh = (old.reconcile new).1.size

theorem map_target_adoptions_sublist (h : new.Built) (old : Tree) :
    ((old.adoptions new).map (·.target)).Sublist new.nodes := by
  rw [h.nodes_eq, adoptions, List.map_flatMap]
  refine List.Sublist.trans ?_ ((map_snd_zip_sublist old.roots new.roots).flatMap _)
  rw [List.flatMap_map]
  exact List.Sublist.flatMap_right _ fun p _ => Table.map_target_adoptions_sublist h.ordered p.1 p.2

/-- No node is a target twice, so that what one adoption says is what becomes of its target. -/
theorem reconcile_node?_of_mem (h : new.Built) (hu : new.Unshared) {x : Adoption} (hx : x ∈ old.adoptions new) :
    (old.reconcile new).1.node? x.target = (new.node? x.target).map x.onto := by
  have honce := (h.nodup_nodes hu).sublist (map_target_adoptions_sublist h old)
  exact Table.get?_foldl_adopt_of_mem (t := new.table) hx fun y hy heq => List.inj_on_of_nodup_map honce hy hx heq

/-- Below roots in the same place that say the same, everything is taken over node by node, whatever digests collide. -/
theorem reconcile_node?_of_content_eq (ho : old.Built) (hn : new.Built) (hu : new.Unshared) {i root root' : Nat}
    (hroot : old.roots[i]? = some root) (hroot' : new.roots[i]? = some root')
    (hcontent : old.table.content root = new.table.content root') {o n : Nat}
    (hpair : (o, n) ∈ (old.descendants root).zip (new.descendants root')) {other : Node}
    (hother : old.node? o = some other) : (old.reconcile new).1.node? n =
      (new.node? n).map fun node => { node with identity := other.identity, options := other.options } := by
  obtain ⟨a, ha⟩ := Table.exists_get?_iff_lt.mpr (ho.roots_lt root (List.mem_of_getElem? hroot))
  obtain ⟨b, hb⟩ := Table.exists_get?_iff_lt.mpr (hn.roots_lt root' (List.mem_of_getElem? hroot'))
  have hmem : (⟨n, other.identity, some other.options⟩ : Adoption) ∈ old.adoptions new := by
    refine List.mem_flatMap.mpr ⟨(root, root'), mem_zip_iff.mpr ⟨i, hroot, hroot'⟩, ?_⟩
    simp only
    rw [Table.adoptions_of_same ha hb]
    · exact List.mem_filterMap.mpr ⟨(o, n), hpair, Option.map_eq_some_iff.mpr ⟨other, hother, rfl⟩⟩
    · exact number_eq_of_content ho.ordered hn.ordered ha hb hcontent
  exact reconcile_node?_of_mem hn hu hmem

/-- The nodes that give something away, in document order and each once. -/
theorem exists_donors (h : old.Built) (new : Tree) :
    ∃ ds, List.Forall₂ (Adoption.IsOf old.table) (old.adoptions new) ds ∧ ds.Sublist old.nodes := by
  have hroots : ∀ p ∈ old.roots.zip new.roots, ∃ ds, List.Forall₂ (Adoption.IsOf old.table)
      (old.table.adoptions (fun o n => old.table.classes.number o == new.table.classes.number n) new.table p.1 p.2) ds ∧
      ds.Sublist (old.descendants p.1) := fun p _ => Table.exists_donors h.ordered p.1 p.2
  obtain ⟨ds, hds, hsub⟩ := exists_forall₂_flatMap (old.roots.zip new.roots) hroots
  refine ⟨ds, hds, hsub.trans ?_⟩
  rw [h.nodes_eq, ← List.flatMap_map]
  exact (map_fst_zip_sublist _ _).flatMap _

/-- A node of the reconciled tree is a target and has the identity of the node that gives it away, or its own. -/
theorem identity_reconcile_cases (hn : new.Built) (hu : new.Unshared) {ds : List Nat}
    (hds : List.Forall₂ (Adoption.IsOf old.table) (old.adoptions new) ds) {n : Nat} (h : n ∈ new.nodes) :
    (∃ (i d : Nat) (x : Adoption), ds[i]? = some d ∧ (old.adoptions new)[i]? = some x ∧ x.target = n ∧
      (old.reconcile new).1.identity n = old.identity d) ∨
    (n ∉ (old.adoptions new).map (·.target) ∧ (old.reconcile new).1.identity n = new.identity n) := by
  by_cases htarget : n ∈ (old.adoptions new).map (·.target)
  · left
    obtain ⟨x, hx, rfl⟩ := List.mem_map.mp htarget
    obtain ⟨i, hi⟩ := List.mem_iff_getElem?.mp hx
    obtain ⟨d, hd⟩ : ∃ d, ds[i]? = some d := by
      have hlt := (List.getElem?_eq_some_iff.mp hi).1
      rw [hds.length_eq] at hlt
      exact ⟨ds[i], List.getElem?_eq_getElem hlt⟩
    obtain ⟨other, hother, hidentity, -⟩ := (List.forall₂_iff_zip.mp hds).2 (mem_zip_iff.mpr ⟨i, hi, hd⟩)
    obtain ⟨node, hnode⟩ := hn.exists_node? h
    have hres := reconcile_node?_of_mem hn hu hx
    rw [hnode, Option.map_some] at hres
    refine ⟨i, d, x, hd, hi, rfl, ?_⟩
    rw [identity_of_node? (t := (old.reconcile new).1) hres, identity_of_node? hother]
    exact hidentity
  · right
    refine ⟨htarget, ?_⟩
    have hres : (old.reconcile new).1.node? n = new.node? n :=
      Table.get?_foldl_adopt_of_forall_ne fun x hx heq => htarget (List.mem_map.mpr ⟨x, hx, heq⟩)
    rw [identity, hres]
    rfl

variable (ho : old.Built) (hn : new.Built) (huo : old.Unshared) (hun : new.Unshared) (hold : old.identities.Nodup)
  (hnew : new.identities.Nodup) (hdisjoint : old.identities.Disjoint new.identities)

include ho hn huo hun hold hnew hdisjoint in
theorem nodup_identities_reconcile : (old.reconcile new).1.identities.Nodup := by
  obtain ⟨ds, hds, hsub⟩ := exists_donors ho new
  have hdonors := (ho.nodup_nodes huo).sublist hsub
  rw [hn.identities_reconcile old]
  refine List.Nodup.map_on (fun n hmem n' hmem' heq => ?_) (hn.nodup_nodes hun)
  rcases identity_reconcile_cases hn hun hds hmem with ⟨i, d, x, hd, hx, rfl, h⟩ | ⟨-, h⟩
  · have hdmem := hsub.subset (List.mem_of_getElem? hd)
    rcases identity_reconcile_cases hn hun hds hmem' with ⟨i', d', x', hd', hx', rfl, h'⟩ | ⟨-, h'⟩
    · obtain rfl := List.inj_on_of_nodup_map hold hdmem (hsub.subset (List.mem_of_getElem? hd'))
        (h.symm.trans (heq.trans h'))
      obtain ⟨hi, hd⟩ := List.getElem?_eq_some_iff.mp hd
      obtain ⟨hi', hd'⟩ := List.getElem?_eq_some_iff.mp hd'
      obtain rfl := hdonors.getElem_inj_iff.mp (hd.trans hd'.symm)
      cases hx.symm.trans hx'
      rfl
    · refine absurd (mem_identities hmem') (hdisjoint ?_)
      rw [← h', ← heq, h]
      exact mem_identities hdmem
  · rcases identity_reconcile_cases hn hun hds hmem' with ⟨i', d', x', hd', -, rfl, h'⟩ | ⟨-, h'⟩
    · refine absurd (mem_identities hmem) (hdisjoint ?_)
      rw [← h, heq, h']
      exact mem_identities (hsub.subset (List.mem_of_getElem? hd'))
    · exact List.inj_on_of_nodup_map hnew hmem hmem' (h.symm.trans (heq.trans h'))

include ho hn hun hdisjoint in
theorem mem_target_iff {n : Nat} : n ∈ (old.adoptions new).map (·.target) ↔
    n ∈ new.nodes ∧ (old.reconcile new).1.identity n ∈ old.identities := by
  obtain ⟨ds, hds, hsub⟩ := exists_donors ho new
  constructor
  · intro htarget
    have hmem := (map_target_adoptions_sublist hn old).subset htarget
    refine ⟨hmem, ?_⟩
    rcases identity_reconcile_cases hn hun hds hmem with ⟨i, d, x, hd, -, rfl, h⟩ | ⟨hnone, -⟩
    · rw [h]
      exact mem_identities (hsub.subset (List.mem_of_getElem? hd))
    · exact absurd htarget hnone
  · rintro ⟨hmem, hidentity⟩
    rcases identity_reconcile_cases hn hun hds hmem with ⟨i, d, x, -, hx, rfl, -⟩ | ⟨-, h⟩
    · exact List.mem_map_of_mem (List.mem_of_getElem? hx)
    · rw [h] at hidentity
      exact absurd (mem_identities hmem) (hdisjoint hidentity)

include ho hn hun hdisjoint in
theorem length_adoptions :
    (old.adoptions new).length = (old.reconcile new).1.identities.countP (· ∈ old.identities) := by
  have hnodup := hn.nodup_nodes hun
  have hperm : ((old.adoptions new).map (·.target)).Perm
      (new.nodes.filter fun n => (old.reconcile new).1.identity n ∈ old.identities) := by
    refine (List.perm_ext_iff_of_nodup (hnodup.sublist (map_target_adoptions_sublist hn old)) (hnodup.filter _)).mpr
      fun n => ?_
    rw [mem_target_iff ho hn hun hdisjoint, List.mem_filter, decide_eq_true_eq]
  have hlength := hperm.length_eq
  rw [List.length_map, ← List.countP_eq_length_filter] at hlength
  rw [hlength, hn.identities_reconcile old, List.countP_map]
  rfl

include ho hn huo hun hold hnew hdisjoint in
theorem identitiesKept_reconcile : IdentitiesKept old new where
  distinct := nodup_identities_reconcile ho hn huo hun hold hnew hdisjoint
  own_or_old := by
    intro n hmem
    obtain ⟨ds, hds, hsub⟩ := exists_donors ho new
    rw [hn.nodes_reconcile old] at hmem
    rcases identity_reconcile_cases hn hun hds hmem with ⟨i, d, x, hd, -, rfl, h⟩ | ⟨-, h⟩
    · rw [h]
      exact .inr (mem_identities (hsub.subset (List.mem_of_getElem? hd)))
    · exact .inl h
  once := fun identity _ =>
    List.nodup_iff_count_le_one.mp (nodup_identities_reconcile ho hn huo hun hold hnew hdisjoint) identity
  found := by
    intro n hmem
    have hbuilt := hn.reconcile old
    obtain ⟨id, hid⟩ := Option.isSome_iff_exists.mp (hbuilt.isSome_byIdentity? hmem)
    obtain ⟨hmem', hsame⟩ := hbuilt.byIdentity?_eq_some hid
    have hdistinct := nodup_identities_reconcile ho hn huo hun hold hnew hdisjoint
    rw [hid, List.inj_on_of_nodup_map hdistinct hmem' hmem hsame]
  dropped := by
    intro identity _ hgone
    by_contra hfound
    obtain ⟨id, hid⟩ := Option.ne_none_iff_exists'.mp hfound
    obtain ⟨hmem, rfl⟩ := (hn.reconcile old).byIdentity?_eq_some hid
    exact hgone (mem_identities hmem)
  adopted := length_adoptions ho hn hun hdisjoint
  total := by
    have hlength := (map_target_adoptions_sublist hn old).length_le
    have hsize : (old.reconcile new).1.size = new.size := by
      have := congrArg List.length (hn.nodes_reconcile old)
      rwa [nodes, nodes, Array.length_toList, Array.length_toList] at this
    rw [List.length_map, nodes, Array.length_toList] at hlength
    rw [hsize]
    exact Nat.add_sub_cancel' hlength

end Reconciled

end Tree

end StructuralEditor
