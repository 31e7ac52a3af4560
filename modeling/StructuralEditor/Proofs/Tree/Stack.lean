import StructuralEditor.Proofs.Tree.Address
import StructuralEditor.Proofs.Tree.DocumentOrder
import StructuralEditor.Tree.Reconciliation

/-!
# Walks with a stack

A forest is walked by a loop over a stack, also if nodes have several parents: children are older than their parents, so
the stack empties.

* `Empties` : a loop over a stack comes to an end; `Empties.eq` : in one way only;
* `empties_foldl` : what it has noted then is the depth-first walk below the members of the stack;
* `Tree.empties_iff_layout`, `Tree.empties_iff_descendants` : the loop that lays a tree out, and the one that gives a
  node and everything below it;
* `Tree.empties_iff_adoptions` : the loop that collects what a tree takes over from another;
* `Tree.Explored`, `Builder.Made.exists_explored` : paths and walks agree in every tree that a builder finishes.
-/

namespace StructuralEditor

/-! ## Loops over a stack -/

section Loops

variable {α σ : Type} {next : α → List α} {note : σ → α → σ}

/-- The loop that takes the top off a stack, notes it and puts what comes next after it on top, comes to an end. It
leads from one state to another. -/
inductive Empties (next : α → List α) (note : σ → α → σ) : List α → σ → σ → Prop
  | done (s : σ) : Empties next note [] s s
  | turn {a : α} {stack : List α} {s s' : σ} (h : Empties next note (next a ++ stack) (note s a) s') :
    Empties next note (a :: stack) s s'

theorem Empties.eq {stack : List α} {s s' s'' : σ} (h : Empties next note stack s s')
    (h' : Empties next note stack s s'') : s' = s'' := by
  induction h with
  | done s =>
    cases h'
    rfl
  | turn _ ih =>
    cases h' with
    | turn h' => exact ih h'

theorem Empties.eq_iff {stack : List α} {s s' s'' : σ} (h : Empties next note stack s s') :
    Empties next note stack s s'' ↔ s'' = s' := by
  constructor
  · exact fun h' => h'.eq h
  · rintro rfl
    exact h

/-- If below a member stand the member and then what is below its next ones, in order, the stack empties, and what is
noted is everything below its members. -/
theorem empties_foldl {below : α → List α} {P : α → Prop} (hbelow : ∀ a, P a → below a = a :: (next a).flatMap below)
    (hnext : ∀ a, P a → ∀ b ∈ next a, P b) {stack : List α} (hstack : ∀ a ∈ stack, P a) (s : σ) :
    Empties next note stack s ((stack.flatMap below).foldl note s) := by
  -- A turn takes the first off what is still to come.
  induction hcome : stack.flatMap below generalizing stack s with
  | nil =>
    cases stack with
    | nil => exact .done s
    | cons a stack =>
      rw [List.flatMap_cons, hbelow a (hstack a List.mem_cons_self)] at hcome
      cases hcome
  | cons b come ih =>
    cases stack with
    | nil => cases hcome
    | cons a stack =>
      obtain ⟨ha, hstack⟩ := List.forall_mem_cons.mp hstack
      rw [List.flatMap_cons, hbelow a ha, List.cons_append, ← List.flatMap_append] at hcome
      obtain ⟨rfl, hrest⟩ := List.cons.inj hcome
      exact .turn (ih (List.forall_mem_append.mpr ⟨hnext a ha, hstack⟩) (note s a) hrest)

theorem foldl_append_eq_flatMap {β : Type} (f : α → List β) (as : List α) (bs : List β) :
    as.foldl (fun bs a => bs ++ f a) bs = bs ++ as.flatMap f := by
  induction as generalizing bs with
  | nil => simp
  | cons a as ih => simp [ih]

end Loops

/-! ## Visits -/

namespace Table

variable {t : Table}

/-- The visits of the children of a visited node, in order. -/
def childVisits (t : Table) (v : Visit) : List Visit :=
  (t.children v.id).zipIdx.map fun (child, index) => v.child (t.children v.id).length index child

def rootVisits (roots : List Nat) : List Visit :=
  roots.zipIdx.map fun (root, index) => Visit.root roots.length index root

theorem visits_eq_cons (ho : t.Ordered) (v : Visit) : t.visits v = v :: (t.childVisits v).flatMap t.visits := by
  rw [visits, childVisits, List.flatMap_map]
  congr 1
  refine List.flatMap_congr ?_
  rintro ⟨child, index⟩ hmem
  exact if_pos (ho v.id child (List.fst_mem_of_mem_zipIdx hmem))

theorem walk_eq_flatMap (roots : List Nat) : t.walk roots = (rootVisits roots).flatMap t.visits := by
  rw [walk, rootVisits, List.flatMap_map]

theorem children_lt_size (ho : t.Ordered) {id : Nat} (hid : id < t.size) : ∀ child ∈ t.children id, child < t.size :=
  fun child hchild => Nat.lt_trans (ho id child hchild) hid

end Table

/-! ## Trees -/

namespace Tree

variable {t : Tree}

/-- The loop that lays a tree out comes to an end, and leaves the layout of the tree. -/
theorem empties_iff_layout (h : t.Built) {layout : Layout} :
    Empties t.table.childVisits (Layout.record t.table) (Table.rootVisits t.roots) (Layout.blank t.table) layout ↔
      layout = t.layout := by
  have hrun : Empties t.table.childVisits (Layout.record t.table) (Table.rootVisits t.roots) (Layout.blank t.table) _ :=
    empties_foldl (P := fun _ => True) (fun v _ => Table.visits_eq_cons h.ordered v) (fun _ _ _ _ => trivial)
      (fun _ _ => trivial) _
  rw [← Table.walk_eq_flatMap, ← Layout.ofRoots, ← h.layout] at hrun
  exact hrun.eq_iff

/-- The stack from which a node and everything below it are taken; a foreign index has nothing. -/
def stackOf (t : Tree) (id : Nat) : List Nat := if (t.node? id).isSome then [id] else []

/-- The loop that gives a node and everything below it comes to an end, and has given the descendants of the node. -/
theorem empties_iff_descendants (h : t.Built) {id : Nat} {given : List Nat} :
    Empties t.children (fun given id => given ++ [id]) (t.stackOf id) [] given ↔ given = t.descendants id := by
  have hstack : (∀ a ∈ t.stackOf id, a < t.table.size) ∧ (t.stackOf id).flatMap t.descendants = t.descendants id := by
    by_cases hid : id < t.table.size
    · rw [stackOf, if_pos (isSome_node?_iff.mpr hid)]
      exact ⟨by simpa using hid, List.flatMap_singleton _ _⟩
    · rw [stackOf, if_neg (mt isSome_node?_iff.mp hid), descendants, Table.descendants, if_neg hid]
      exact ⟨by simp, rfl⟩
  have hrun : Empties t.children (fun given id => given ++ [id]) (t.stackOf id) [] _ :=
    empties_foldl (P := (· < t.table.size)) (fun id hid => Table.descendants_eq_cons h.ordered hid)
      (fun id hid => Table.children_lt_size h.ordered hid) hstack.1 []
  rw [foldl_append_eq_flatMap, List.nil_append, List.flatMap_singleton',
    show t.table.descendants = t.descendants from rfl, hstack.2] at hrun
  exact hrun.eq_iff

end Tree

/-! ## What trees take over -/

namespace Table

variable {same : Nat → Nat → Bool} {old new : Table} {p q : Nat × Nat}

/-- A turn of the loop for a pair of nodes: what is collected, and the pairs that are put on the stack. -/
def turn (same : Nat → Nat → Bool) (old new : Table) (p : Nat × Nat) : List Adoption × List (Nat × Nat) :=
  match old.get? p.1, new.get? p.2 with
  | some a, some b =>
    if same p.1 p.2 then
      (((old.descendants p.1).zip (new.descendants p.2)).filterMap fun q => old.adoptWhole q.1 q.2, [])
    else if a.kind.tag ≠ b.kind.tag ∨ b.kind.isLeaf then ([], [])
    else ([⟨p.2, a.identity, none⟩], a.kind.pairs b.kind)
  | _, _ => ([], [])

/-- A pair of nodes and all pairs that are come to from it. -/
def pairsBelow (same : Nat → Nat → Bool) (old new : Table) (p : Nat × Nat) : List (Nat × Nat) :=
  p :: (turn same old new p).2.flatMap fun q => if q.2 < p.2 then pairsBelow same old new q else []
termination_by p.2

theorem lt_of_mem_turn (hn : new.Ordered) (h : q ∈ (turn same old new p).2) : q.2 < p.2 := by
  unfold turn at h
  split at h
  · next a b ha hb =>
    split_ifs at h
    · cases h
    · cases h
    · obtain ⟨s, -, hchild⟩ := Kind.mem_pairs_iff.mp h
      exact lt_of_child? hn ((child?_of_get? hb s).trans hchild)
  · cases h

theorem pairsBelow_eq_cons (hn : new.Ordered) (p : Nat × Nat) :
    pairsBelow same old new p = p :: (turn same old new p).2.flatMap (pairsBelow same old new) := by
  rw [pairsBelow]
  congr 1
  exact List.flatMap_congr fun q hq => if_pos (lt_of_mem_turn hn hq)

theorem adoptions_eq_append (hn : new.Ordered) (p : Nat × Nat) : old.adoptions same new p.1 p.2 =
    (turn same old new p).1 ++ (turn same old new p).2.flatMap fun q => old.adoptions same new q.1 q.2 := by
  have hlt : ∀ q ∈ (turn same old new p).2, q.2 < p.2 := fun q => lt_of_mem_turn hn
  revert hlt
  rw [adoptions, turn]
  rcases old.get? p.1 with _ | a
  · exact fun _ => rfl
  rcases new.get? p.2 with _ | b
  · exact fun _ => rfl
  simp only
  intro hlt
  split_ifs at hlt ⊢
  · simp
  · simp
  · rw [List.singleton_append]
    congr 1
    exact List.flatMap_congr fun q hq => if_pos (hlt q hq)

theorem adoptions_eq_flatMap (hn : new.Ordered) (p : Nat × Nat) :
    old.adoptions same new p.1 p.2 = (pairsBelow same old new p).flatMap fun q => (turn same old new q).1 := by
  induction hlast : p.2 using Nat.strongRecOn generalizing p with
  | ind n ih =>
    subst hlast
    rw [adoptions_eq_append hn, pairsBelow_eq_cons hn, List.flatMap_cons, List.flatMap_assoc]
    congr 1
    exact List.flatMap_congr fun q hq => ih q.2 (lt_of_mem_turn hn hq) q rfl

end Table

namespace Tree

variable {t : Tree}

/-- The loop that pairs nodes of two trees, the roots first, comes to an end, and has collected what the second tree
takes over. -/
theorem empties_iff_adoptions [Hasher] {old new : Tree} (hn : new.Built) {taken : List Adoption} :
    let same := fun o n => old.table.classes.number o == new.table.classes.number n
    Empties (fun p => (Table.turn same old.table new.table p).2)
      (fun taken p => taken ++ (Table.turn same old.table new.table p).1) (old.roots.zip new.roots) [] taken ↔
        taken = old.adoptions new := by
  intro same
  have hrun : Empties (fun p => (Table.turn same old.table new.table p).2)
      (fun taken p => taken ++ (Table.turn same old.table new.table p).1) (old.roots.zip new.roots) [] _ :=
    empties_foldl (P := fun _ => True) (fun p _ => Table.pairsBelow_eq_cons hn.ordered p) (fun _ _ _ _ => trivial)
      (fun _ _ => trivial) _
  rw [foldl_append_eq_flatMap, List.nil_append, List.flatMap_assoc] at hrun
  have hall : (old.roots.zip new.roots).flatMap (fun p =>
      (Table.pairsBelow same old.table new.table p).flatMap fun q => (Table.turn same old.table new.table q).1) =
        old.adoptions new :=
    List.flatMap_congr fun p _ => (Table.adoptions_eq_flatMap hn.ordered p).symm
  rw [hall] at hrun
  exact hrun.eq_iff

/-! ## Walks and paths -/

/-- Walks and paths agree: the loops over a stack come to an end, the nodes are those below the roots in order, and
a path finds a node just if its indices lead there. -/
structure Explored (t : Tree) : Prop where
  layout : ∀ layout, Empties t.table.childVisits (Layout.record t.table) (Table.rootVisits t.roots)
    (Layout.blank t.table) layout ↔ layout = t.layout
  descendants : ∀ id given, Empties t.children (fun given id => given ++ [id]) (t.stackOf id) [] given ↔
    given = t.descendants id
  nodes : t.nodes = t.roots.flatMap t.descendants
  size : t.size = (t.roots.flatMap t.descendants).length
  byPath : ∀ path id, t.byPath? path = some id ↔ t.table.follow? t.roots path = some id
  found : ∀ id, id ∈ t.nodes ↔ ∃ path, t.byPath? path = some id

theorem Built.explored (h : t.Built) : t.Explored where
  layout := fun _ => empties_iff_layout h
  descendants := fun _ _ => empties_iff_descendants h
  nodes := h.nodes_eq
  size := by
    rw [size, ← Array.length_toList]
    exact congrArg List.length h.nodes_eq
  byPath := fun path id => by rw [h.byPath?_eq_follow?]
  found := by
    intro id
    rw [h.mem_nodes_iff_walk]
    simp only [h.byPath?_eq_follow?, Table.follow?_eq_some_iff h.ordered]
    constructor
    · rintro ⟨v, hv, hid⟩
      exact ⟨v.path, v, hv, rfl, hid⟩
    · rintro ⟨path, v, hv, -, hid⟩
      exact ⟨v, hv, hid⟩

end Tree

/-- Every forest of nodes that a builder has made is finished as a tree, in which walks and paths agree. Nodes may be
shared. -/
theorem Builder.Made.exists_explored {b : Builder} (hb : b.Made) {roots : List Nat}
    (hroots : ∀ root ∈ roots, root < b.table.size) (depth : Nat) :
    ∃ t, b.finish roots depth = .ok t ∧ t.table = b.table ∧ t.roots = roots ∧ t.Explored := by
  have hfinish : b.finish roots depth = .ok (Tree.ofTable b.table roots depth) := by
    unfold Builder.finish
    rw [List.find?_eq_none.mpr fun root hroot => by simpa using hroots root hroot]
  exact ⟨_, hfinish, rfl, rfl, (Tree.Made.finish hb hfinish).built.explored⟩

/-- A name that is applied to itself twice, and is a root too: one node, at four paths. -/
theorem Builder.Made.exists_explored_shared :
    ∃ b t, Builder.add ((Builder.start 0).addLiteral (.empty .zero) "x" "symbol") (.empty .zero) (.application 0 [0, 0])
        (Options.labelled "x of x") = .ok b ∧ b.finish [1, 0] defaultDepth = .ok t ∧ t.Explored ∧
      t.nodes = [1, 0, 0, 0, 0] ∧ [⟨[0, 0]⟩, ⟨[0, 1]⟩, ⟨[0, 2]⟩, ⟨[1]⟩].map t.byPath? = List.replicate 4 (some 0) := by
  have hx := (Builder.Made.start 0).addLiteral (.empty .zero) "x" "symbol"
  have hb := hx.add (show Builder.add _ (.empty .zero) (.application 0 [0, 0]) (Options.labelled "x of x") =
    .ok (Builder.push _ _ _ _) from rfl)
  obtain ⟨t, hfinish, -, -, hexplored⟩ :=
    Builder.Made.exists_explored hb (show ∀ root ∈ [1, 0], root < 2 by decide) defaultDepth
  have hpath := fun path id => (hexplored.byPath path id).mpr
  refine ⟨_, t, rfl, hfinish, hexplored, hexplored.nodes.trans ?_, ?_⟩
  · cases hfinish
    decide +kernel
  · cases hfinish
    rw [List.map_cons, List.map_cons, List.map_cons, List.map_cons, List.map_nil,
      hpath ⟨[0, 0]⟩ 0 (by decide +kernel), hpath ⟨[0, 1]⟩ 0 (by decide +kernel),
      hpath ⟨[0, 2]⟩ 0 (by decide +kernel), hpath ⟨[1]⟩ 0 (by decide +kernel)]
    rfl

end StructuralEditor
