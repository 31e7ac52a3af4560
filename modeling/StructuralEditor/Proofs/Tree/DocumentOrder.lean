import StructuralEditor.Proofs.Tree.Census

/-!
# Document order

* `Table.down?`, `Table.follow?` : the node that indices among siblings lead to;
* `Table.walk_induction` : what holds of the roots and is handed down to children holds of every visit;
* `Table.follow?_eq_some_iff` : the paths of the visits are those that lead to a node;
* `Layout.places_foldl`, `Layout.byPath_foldl` : what recorded visits leave in a layout;
* `Tree.LaidOut` : the places of the nodes number the forest in document order;
* `Tree.Made`, `Tree.Made.laidOut` : so it is in every tree that a builder finishes, also after it has taken
  identities over or was laid out again.
-/

namespace StructuralEditor

/-! ## Visits -/

namespace Table

variable {t : Table} {roots : List Nat}

/-- The node that indices among siblings lead to from `id`. -/
def down? (t : Table) (id : Nat) : List Nat → Option Nat
  | [] => some id
  | index :: rest => (t.children id)[index]?.bind fun child => t.down? child rest

def follow? (t : Table) (roots : List Nat) (path : Path) : Option Nat :=
  match path.segments with
  | [] => none
  | index :: rest => roots[index]?.bind fun root => t.down? root rest

theorem down?_concat (t : Table) (id : Nat) (indices : List Nat) (index : Nat) :
    t.down? id (indices ++ [index]) = (t.down? id indices).bind fun last => (t.children last)[index]? := by
  induction indices generalizing id with
  | nil =>
    show (t.children id)[index]?.bind some = _
    rw [Option.bind_fun_some]
    rfl
  | cons first rest ih =>
    show ((t.children id)[first]?.bind fun child => t.down? child (rest ++ [index])) = _
    simp only [ih]
    exact (Option.bind_assoc _ _ _).symm

theorem follow?_root (index : Nat) : t.follow? roots (Path.root index) = roots[index]? :=
  Option.bind_fun_some _

theorem follow?_child {path : Path} {id : Nat} (h : t.follow? roots path = some id) (index : Nat) :
    t.follow? roots (path.child index) = (t.children id)[index]? := by
  obtain ⟨segments⟩ := path
  cases segments with
  | nil => cases h
  | cons first rest =>
    obtain ⟨root, hroot, hdown⟩ := Option.bind_eq_some_iff.mp h
    show (roots[first]?.bind fun root => t.down? root (rest ++ [index])) = _
    rw [hroot, Option.bind_some, down?_concat, hdown, Option.bind_some]

theorem mem_visits_iff (ho : t.Ordered) {v w : Visit} : w ∈ t.visits v ↔ w = v ∨
    ∃ index child, (t.children v.id)[index]? = some child ∧
      w ∈ t.visits (v.child (t.children v.id).length index child) := by
  rw [visits, List.mem_cons, List.mem_flatMap]
  refine or_congr_right ⟨?_, ?_⟩
  · rintro ⟨⟨child, index⟩, hmem, hw⟩
    have hindex := List.mk_mem_zipIdx_iff_getElem?.mp hmem
    simp only [if_pos (ho v.id child (List.mem_of_getElem? hindex))] at hw
    exact ⟨index, child, hindex, hw⟩
  · rintro ⟨index, child, hindex, hw⟩
    refine ⟨(child, index), List.mk_mem_zipIdx_iff_getElem?.mpr hindex, ?_⟩
    simpa only [if_pos (ho v.id child (List.mem_of_getElem? hindex))] using hw

theorem mem_walk_iff {v : Visit} : v ∈ t.walk roots ↔ ∃ index root, roots[index]? = some root ∧
    v ∈ t.visits (Visit.root roots.length index root) := by
  rw [walk, List.mem_flatMap]
  constructor
  · rintro ⟨⟨root, index⟩, hmem, hv⟩
    exact ⟨index, root, List.mk_mem_zipIdx_iff_getElem?.mp hmem, hv⟩
  · rintro ⟨index, root, hindex, hv⟩
    exact ⟨(root, index), List.mk_mem_zipIdx_iff_getElem?.mpr hindex, hv⟩

/-- The visits below one are closed under children, and nothing else is among them. -/
theorem visits_induction (ho : t.Ordered) {P : Visit → Prop} {v : Visit} (hv : P v)
    (hchild : ∀ w index child, P w → (t.children w.id)[index]? = some child →
      P (w.child (t.children w.id).length index child)) : ∀ w ∈ t.visits v, P w := by
  induction hid : v.id using Nat.strongRecOn generalizing v with
  | ind id ih =>
    subst hid
    intro w hw
    rcases (mem_visits_iff ho).mp hw with rfl | ⟨index, child, hindex, hw⟩
    · exact hv
    · exact ih child (ho v.id child (List.mem_of_getElem? hindex)) (hchild v index child hv hindex) rfl w hw

theorem child_mem_visits (ho : t.Ordered) {v w : Visit} (hw : w ∈ t.visits v) {index child : Nat}
    (hindex : (t.children w.id)[index]? = some child) :
    w.child (t.children w.id).length index child ∈ t.visits v := by
  induction hid : v.id using Nat.strongRecOn generalizing v with
  | ind id ih =>
    subst hid
    rcases (mem_visits_iff ho).mp hw with rfl | ⟨index', child', hindex', hw⟩
    · exact (mem_visits_iff ho).mpr (.inr ⟨index, child, hindex, (mem_visits_iff ho).mpr (.inl rfl)⟩)
    · have hlt := ho v.id child' (List.mem_of_getElem? hindex')
      exact (mem_visits_iff ho).mpr (.inr ⟨index', child', hindex', ih child' hlt hw rfl⟩)

theorem root_mem_walk (ho : t.Ordered) {index root : Nat} (h : roots[index]? = some root) :
    Visit.root roots.length index root ∈ t.walk roots :=
  mem_walk_iff.mpr ⟨index, root, h, (mem_visits_iff ho).mpr (.inl rfl)⟩

theorem child_mem_walk (ho : t.Ordered) {v : Visit} (hv : v ∈ t.walk roots) {index child : Nat}
    (hindex : (t.children v.id)[index]? = some child) :
    v.child (t.children v.id).length index child ∈ t.walk roots := by
  obtain ⟨i, root, hroot, hv⟩ := mem_walk_iff.mp hv
  exact mem_walk_iff.mpr ⟨i, root, hroot, child_mem_visits ho hv hindex⟩

/-- What holds of the roots and is handed down to children holds of every visit. -/
theorem walk_induction (ho : t.Ordered) {P : Visit → Prop}
    (hroot : ∀ index root, roots[index]? = some root → P (Visit.root roots.length index root))
    (hchild : ∀ v ∈ t.walk roots, P v → ∀ index child, (t.children v.id)[index]? = some child →
      P (v.child (t.children v.id).length index child)) : ∀ v ∈ t.walk roots, P v := by
  intro v hv
  obtain ⟨index, root, hindex, hv⟩ := mem_walk_iff.mp hv
  have hall : ∀ w ∈ t.visits (Visit.root roots.length index root), w ∈ t.walk roots ∧ P w := by
    refine visits_induction ho ⟨root_mem_walk ho hindex, hroot index root hindex⟩ ?_
    rintro w index child ⟨hw, hP⟩ hindex
    exact ⟨child_mem_walk ho hw hindex, hchild w hw hP index child hindex⟩
  exact (hall v hv).2

theorem level_of_mem_walk (ho : t.Ordered) : ∀ v ∈ t.walk roots, v.level = v.path.length := by
  refine walk_induction ho (fun _ _ _ => rfl) fun v _ hv index child _ => ?_
  show v.level + 1 = (v.path.segments ++ [index]).length
  rw [List.length_append, hv]
  rfl

/-- Every visit is one of a root, or of a child of a node that is visited too. -/
theorem mem_walk_cases (ho : t.Ordered) : ∀ v ∈ t.walk roots,
    (∃ index, roots[index]? = some v.id ∧ v = Visit.root roots.length index v.id) ∨
    ∃ above ∈ t.walk roots, ∃ index, (t.children above.id)[index]? = some v.id ∧
      v = above.child (t.children above.id).length index v.id :=
  walk_induction ho (fun index _ hindex => .inl ⟨index, hindex, rfl⟩)
    fun v hv _ index _ hindex => .inr ⟨v, hv, index, hindex, rfl⟩

theorem follow?_of_mem_walk (ho : t.Ordered) : ∀ v ∈ t.walk roots, t.follow? roots v.path = some v.id := by
  refine walk_induction ho (fun index root hindex => ?_) fun v _ hv index child hindex => ?_
  · exact (follow?_root index).trans hindex
  · exact (follow?_child hv index).trans hindex

theorem id_eq_of_path_eq (ho : t.Ordered) {v w : Visit} (hv : v ∈ t.walk roots) (hw : w ∈ t.walk roots)
    (h : v.path = w.path) : v.id = w.id := by
  have hfollow := follow?_of_mem_walk ho v hv
  rw [h, follow?_of_mem_walk ho w hw] at hfollow
  exact (Option.some.inj hfollow).symm

theorem follow?_eq_some_iff (ho : t.Ordered) {path : Path} {id : Nat} :
    t.follow? roots path = some id ↔ ∃ v ∈ t.walk roots, v.path = path ∧ v.id = id := by
  constructor
  · obtain ⟨segments⟩ := path
    intro h
    induction segments using List.reverseRecOn generalizing id with
    | nil => cases h
    | append_singleton segments index ih =>
      rcases segments with _ | ⟨first, rest⟩
      · have hroot : roots[index]? = some id := (follow?_root index).symm.trans h
        exact ⟨_, root_mem_walk ho hroot, rfl, rfl⟩
      · obtain ⟨root, hroot, hdown⟩ := Option.bind_eq_some_iff.mp h
        have hsplit := (t.down?_concat root rest index).symm.trans hdown
        obtain ⟨last, hlast, hindex⟩ := Option.bind_eq_some_iff.mp hsplit
        obtain ⟨v, hv, hpath, rfl⟩ := ih (Option.bind_eq_some_iff.mpr ⟨root, hroot, hlast⟩)
        refine ⟨_, child_mem_walk ho hv hindex, ?_, rfl⟩
        show v.path.child index = _
        rw [hpath]
        rfl
  · rintro ⟨v, hv, rfl, rfl⟩
    exact follow?_of_mem_walk ho v hv

end Table

/-! ## Recorded visits -/

/-- The place of a visited node with the given number and neighbours. -/
def Visit.placed (v : Visit) (number : Nat) (previous next : Option Nat) : Place where
  parent := v.parent
  path := v.path
  level := v.level
  number := number
  previous := previous
  next := next
  setSize := v.setSize
  position := v.position

namespace Layout

variable {t : Table}

/-- A visit places its node, and is noted as the next one at the node before. -/
theorem getElem?_places_record (l : Layout) (v : Visit) (id : Nat) :
    (record t l v).places[id]? =
      ((if v.id = id then l.places[id]?.map fun _ => v.placed l.order.size l.order.back? none
        else l.places[id]?).map fun place =>
          if l.order.back? = some id then { place with next := some v.id } else place) := by
  unfold record
  cases hback : l.order.back? with
  | none =>
    simp only [Array.getElem?_modify, reduceCtorEq, if_false, Option.map_id']
    rfl
  | some p =>
    simp only [Array.getElem?_modify, Option.some.injEq]
    by_cases hp : p = id
    · simp only [if_pos hp]
      rfl
    · simp only [if_neg hp, Option.map_id']
      rfl

theorem size_places_foldl (l : Layout) (vs : List Visit) :
    (vs.foldl (record t) l).places.size = l.places.size := by
  induction vs generalizing l with
  | nil => rfl
  | cons v vs ih =>
    rw [List.foldl_cons, ih]
    unfold record
    cases l.order.back? <;> simp

theorem back?_order_foldl (vs : List Visit) :
    (vs.foldl (record t) (blank t)).order.back? = (vs.map (·.id)).getLast? := by
  rw [← Array.getLast?_toList, toList_order_foldl]
  rfl

/-- Of visits of different nodes, each leaves its place, between the visits before and after it. -/
theorem places_foldl {before behind : List Visit} {v : Visit} (hv : v.id < t.size)
    (hnodup : ((before ++ v :: behind).map (·.id)).Nodup) :
    ((before ++ v :: behind).foldl (record t) (blank t)).places[v.id]? =
      some (v.placed before.length (before.map (·.id)).getLast? (behind.map (·.id)).head?) := by
  -- Later visits touch the place only if they come next, so the induction is on them, from the last one.
  induction behind using List.reverseRecOn with
  | nil =>
    have hnew : (before.map (·.id)).getLast? ≠ some v.id := by
      intro hlast
      rw [List.map_append] at hnodup
      exact List.disjoint_of_nodup_append hnodup (List.mem_of_getLast? hlast) (by simp)
    have hsize : (before.foldl (record t) (blank t)).order.size = before.length := by
      rw [← Array.length_toList, toList_order_foldl]
      simp [blank]
    have hplace : ∃ place, (before.foldl (record t) (blank t)).places[v.id]? = some place := by
      refine ⟨_, Array.getElem?_eq_getElem ?_⟩
      rw [size_places_foldl]
      simpa [blank] using hv
    obtain ⟨place, hplace⟩ := hplace
    rw [List.foldl_append, List.foldl_cons, List.foldl_nil, getElem?_places_record, if_pos rfl, hplace,
      back?_order_foldl, hsize]
    simp only [Option.map_some, if_neg hnew]
    rfl
  | append_singleton behind w ih =>
    rw [← List.cons_append, ← List.append_assoc, List.map_append] at hnodup
    have hne : w.id ≠ v.id := by
      intro heq
      refine List.disjoint_of_nodup_append hnodup (List.mem_map_of_mem (a := v) (by simp)) ?_
      simp [heq]
    have hnodup := List.Nodup.of_append_left hnodup
    have hbehind := ih hnodup
    rw [← List.cons_append, ← List.append_assoc, List.foldl_append, List.foldl_cons, List.foldl_nil,
      getElem?_places_record, if_neg hne, hbehind, back?_order_foldl, Option.map_some]
    rcases behind with _ | ⟨next, behind⟩
    · simp [Visit.placed]
    · have hlast : ((before ++ v :: next :: behind).map (·.id)).getLast? ≠ some v.id := by
        intro hlast
        have hsame : ((before ++ v :: next :: behind).map (·.id)).getLast? =
            ((next :: behind).map (·.id)).getLast? := by
          rw [List.map_append, List.getLast?_append_of_ne_nil _ (by simp)]
          rfl
        rw [hsame] at hlast
        rw [List.map_append, List.map_cons] at hnodup
        exact (List.nodup_cons.mp (List.Nodup.of_append_right hnodup)).1 (List.mem_of_getLast? hlast)
      rw [if_neg hlast]
      rfl

/-- What visits are recorded under a path, if visits with the same path are of the same node. -/
theorem byPath_foldl {vs : List Visit} (h : ∀ v ∈ vs, ∀ w ∈ vs, v.path = w.path → v.id = w.id) {path : Path}
    {id : Nat} : (vs.foldl (record t) (blank t)).byPath[path]? = some id ↔ ∃ v ∈ vs, v.path = path ∧ v.id = id := by
  induction vs using List.reverseRecOn with
  | nil => simp [blank]
  | append_singleton vs w ih =>
    have hvs := ih fun v hv v' hv' => h v (List.mem_append_left _ hv) v' (List.mem_append_left _ hv')
    have hinsert : ((vs ++ [w]).foldl (record t) (blank t)).byPath =
        (vs.foldl (record t) (blank t)).byPath.insert w.path w.id := by
      rw [List.foldl_append]
      rfl
    rw [hinsert, Std.HashMap.getElem?_insert]
    by_cases hpath : w.path = path
    · rw [if_pos (beq_iff_eq.mpr hpath)]
      constructor
      · intro heq
        exact ⟨w, by simp, hpath, Option.some.inj heq⟩
      · rintro ⟨v, hv, hvpath, rfl⟩
        rw [h w (by simp) v hv (hpath.trans hvpath.symm)]
    · rw [if_neg (by simpa using hpath), hvs]
      constructor
      · rintro ⟨v, hv, hvpath⟩
        exact ⟨v, List.mem_append_left _ hv, hvpath⟩
      · rintro ⟨v, hv, hvpath, hid⟩
        rcases List.mem_append.mp hv with hv | hv
        · exact ⟨v, hv, hvpath, hid⟩
        · obtain rfl := List.mem_singleton.mp hv
          exact absurd hvpath hpath

end Layout

/-! ## Places in a tree -/

namespace Tree

variable {t : Tree}

/-- The nodes among which one with this parent stands; those without a parent are the roots. -/
def under (t : Tree) : Option Nat → List Nat
  | none => t.roots
  | some above => t.children above

def pathAbove (t : Tree) : Option Nat → Path
  | none => Path.empty
  | some above => t.path above

/-- The layout numbers the forest in document order: parents first, and children in the order of their fields. -/
structure LaidOut (t : Tree) : Prop where
  preorder : t.nodes = t.roots.flatMap t.descendants
  descendants : ∀ id ∈ t.nodes, t.descendants id = id :: (t.children id).flatMap t.descendants
  reachable : ∀ id, id ∈ t.nodes ↔ ∃ a, t.at? a = some id
  once : t.nodes.Nodup
  placed : ∀ id ∈ t.nodes, t.place? id = some (t.place id)
  number : ∀ i id, t.nodes[i]? = some id → (t.place id).number = i ∧ t.byNumber? i = some id
  path_inj : ∀ id ∈ t.nodes, ∀ id' ∈ t.nodes, t.path id = t.path id' → id = id'
  byPath : ∀ path id, t.byPath? path = some id ↔ id ∈ t.nodes ∧ t.path id = path
  parent_none : ∀ id ∈ t.nodes, (t.place id).parent = none ↔ id ∈ t.roots
  parent_mem : ∀ id ∈ t.nodes, ∀ above, (t.place id).parent = some above → above ∈ t.nodes
  among : ∀ id ∈ t.nodes, ∃ index, (t.under (t.place id).parent)[index]? = some id ∧
    t.path id = (t.pathAbove (t.place id).parent).child index ∧ (t.place id).position = index + 1 ∧
    (t.place id).setSize = (t.under (t.place id).parent).length
  level : ∀ id ∈ t.nodes, (t.place id).level = (t.path id).length
  neighbours : ∀ before id behind, t.nodes = before ++ id :: behind →
    (t.place id).previous = before.getLast? ∧ (t.place id).next = behind.head?
  annotated : t.annotate = t

theorem Built.map_id_walk (h : t.Built) : (t.table.walk t.roots).map (·.id) = t.nodes :=
  (Table.map_id_walk h.ordered h.roots_lt).trans h.nodes_eq.symm

theorem Built.mem_nodes_iff_walk (h : t.Built) {id : Nat} :
    id ∈ t.nodes ↔ ∃ v ∈ t.table.walk t.roots, v.id = id := by
  rw [← h.map_id_walk, List.mem_map]

theorem Built.byPath?_eq_follow? (h : t.Built) (path : Path) : t.byPath? path = t.table.follow? t.roots path := by
  ext id
  rw [Table.follow?_eq_some_iff h.ordered, byPath?, h.layout]
  exact Layout.byPath_foldl fun _ hv _ hw => Table.id_eq_of_path_eq h.ordered hv hw

section Unshared

variable (hb : t.Built) (hu : t.Unshared)

include hb hu

theorem visit_eq_of_id_eq {v w : Visit} (hv : v ∈ t.table.walk t.roots) (hw : w ∈ t.table.walk t.roots)
    (h : v.id = w.id) : v = w := by
  refine List.inj_on_of_nodup_map (f := (·.id)) ?_ hv hw h
  rw [hb.map_id_walk]
  exact hb.nodup_nodes hu

theorem place?_of_walk {before behind : List Visit} {v : Visit} (h : t.table.walk t.roots = before ++ v :: behind) :
    t.place? v.id = some (v.placed before.length (before.map (·.id)).getLast? (behind.map (·.id)).head?) := by
  have hids := hb.map_id_walk
  have hnodup := hb.nodup_nodes hu
  rw [← hids, h] at hnodup
  have hv : v.id < t.table.size := by
    obtain ⟨node, hnode⟩ := hb.exists_node? (hb.mem_nodes_iff_walk.mpr ⟨v, h ▸ by simp, rfl⟩)
    exact Table.exists_get?_iff_lt.mp ⟨node, hnode⟩
  rw [place?, hb.layout, Layout.ofRoots, h]
  exact Layout.places_foldl hv hnodup

theorem place_of_walk {v : Visit} (h : v ∈ t.table.walk t.roots) : t.place? v.id = some (t.place v.id) ∧
    ∃ number previous next, t.place v.id = v.placed number previous next := by
  obtain ⟨before, behind, hsplit⟩ := List.append_of_mem h
  have hplace := place?_of_walk hb hu hsplit
  have heq : t.place v.id = _ := congrArg (·.getD {}) hplace
  rw [hplace, heq]
  exact ⟨rfl, _, _, _, rfl⟩

theorem path_of_walk {v : Visit} (h : v ∈ t.table.walk t.roots) : t.path v.id = v.path := by
  obtain ⟨-, number, previous, next, hplace⟩ := place_of_walk hb hu h
  rw [path, hplace]
  rfl

theorem parent_of_walk {v : Visit} (h : v ∈ t.table.walk t.roots) : (t.place v.id).parent = v.parent := by
  obtain ⟨-, number, previous, next, hplace⟩ := place_of_walk hb hu h
  rw [hplace]
  rfl

theorem place_of_nodes {before behind : List Nat} {id : Nat} (h : t.nodes = before ++ id :: behind) :
    (t.place id).number = before.length ∧ (t.place id).previous = before.getLast? ∧
      (t.place id).next = behind.head? := by
  rw [← hb.map_id_walk] at h
  obtain ⟨vs, ws, hwalk, rfl, hws⟩ := List.map_eq_append_iff.mp h
  obtain ⟨v, ws, rfl, rfl, rfl⟩ := List.map_eq_cons_iff.mp hws
  have hplace : t.place v.id = _ := congrArg (·.getD {}) (place?_of_walk hb hu hwalk)
  rw [hplace, List.length_map]
  exact ⟨rfl, rfl, rfl⟩

theorem parent_eq_none_iff {id : Nat} (hid : id ∈ t.nodes) : (t.place id).parent = none ↔ id ∈ t.roots := by
  obtain ⟨v, hv, rfl⟩ := hb.mem_nodes_iff_walk.mp hid
  rw [parent_of_walk hb hu hv]
  constructor
  · intro hnone
    rcases Table.mem_walk_cases hb.ordered v hv with ⟨index, hindex, -⟩ | ⟨above, -, index, -, heq⟩
    · exact List.mem_of_getElem? hindex
    · rw [heq] at hnone
      cases hnone
  · intro hroot
    obtain ⟨index, hindex⟩ := List.mem_iff_getElem?.mp hroot
    rw [visit_eq_of_id_eq hb hu hv (Table.root_mem_walk hb.ordered hindex) rfl]
    rfl

theorem exists_index {id : Nat} (hid : id ∈ t.nodes) : ∃ index, (t.under (t.place id).parent)[index]? = some id ∧
    t.path id = (t.pathAbove (t.place id).parent).child index ∧ (t.place id).position = index + 1 ∧
    (t.place id).setSize = (t.under (t.place id).parent).length := by
  obtain ⟨v, hv, rfl⟩ := hb.mem_nodes_iff_walk.mp hid
  obtain ⟨-, number, previous, next, hplace⟩ := place_of_walk hb hu hv
  rw [path, hplace]
  rcases Table.mem_walk_cases hb.ordered v hv with ⟨index, hindex, heq⟩ | ⟨above, habove, index, hindex, heq⟩
  · rw [heq]
    exact ⟨index, hindex, rfl, rfl, rfl⟩
  · have hpath : t.pathAbove v.parent = above.path := by
      rw [heq]
      exact path_of_walk hb hu habove
    refine ⟨index, ?_, ?_, ?_, ?_⟩
    · show (t.under v.parent)[index]? = some v.id
      rw [heq]
      exact hindex
    · show v.path = (t.pathAbove v.parent).child index
      rw [hpath, heq]
      rfl
    · show v.position = index + 1
      rw [heq]
      rfl
    · show v.setSize = (t.under v.parent).length
      rw [heq]
      rfl

theorem laidOut_of_built : t.LaidOut where
  preorder := hb.nodes_eq
  descendants := by
    intro id hid
    exact Table.descendants_eq_cons hb.ordered (Table.exists_get?_iff_lt.mp (hb.exists_node? hid))
  reachable := fun _ => hb.mem_nodes_iff
  once := hb.nodup_nodes hu
  placed := by
    intro id hid
    obtain ⟨v, hv, rfl⟩ := hb.mem_nodes_iff_walk.mp hid
    exact (place_of_walk hb hu hv).1
  number := by
    intro i id hid
    obtain ⟨hi, rfl⟩ := List.getElem?_eq_some_iff.mp hid
    have hsplit : t.nodes = t.nodes.take i ++ t.nodes[i] :: t.nodes.drop (i + 1) := by
      rw [← List.drop_eq_getElem_cons hi, List.take_append_drop]
    refine ⟨?_, ?_⟩
    · rw [(place_of_nodes hb hu hsplit).1, List.length_take]
      omega
    · rw [byNumber?, ← Array.getElem?_toList]
      exact hid
  path_inj := by
    intro id hid id' hid' hpath
    obtain ⟨v, hv, rfl⟩ := hb.mem_nodes_iff_walk.mp hid
    obtain ⟨w, hw, rfl⟩ := hb.mem_nodes_iff_walk.mp hid'
    rw [path_of_walk hb hu hv, path_of_walk hb hu hw] at hpath
    exact Table.id_eq_of_path_eq hb.ordered hv hw hpath
  byPath := by
    intro path id
    rw [hb.byPath?_eq_follow?, Table.follow?_eq_some_iff hb.ordered, hb.mem_nodes_iff_walk]
    constructor
    · rintro ⟨v, hv, rfl, rfl⟩
      exact ⟨⟨v, hv, rfl⟩, path_of_walk hb hu hv⟩
    · rintro ⟨⟨v, hv, rfl⟩, hpath⟩
      exact ⟨v, hv, (path_of_walk hb hu hv).symm.trans hpath, rfl⟩
  parent_none := fun _ hid => parent_eq_none_iff hb hu hid
  parent_mem := by
    intro id hid above habove
    obtain ⟨v, hv, rfl⟩ := hb.mem_nodes_iff_walk.mp hid
    rw [parent_of_walk hb hu hv] at habove
    rcases Table.mem_walk_cases hb.ordered v hv with ⟨index, -, heq⟩ | ⟨w, hw, index, -, heq⟩
    · rw [heq] at habove
      cases habove
    · rw [heq] at habove
      cases habove
      exact hb.mem_nodes_iff_walk.mpr ⟨w, hw, rfl⟩
  among := fun _ hid => exists_index hb hu hid
  level := by
    intro id hid
    obtain ⟨v, hv, rfl⟩ := hb.mem_nodes_iff_walk.mp hid
    obtain ⟨-, number, previous, next, hplace⟩ := place_of_walk hb hu hv
    rw [path_of_walk hb hu hv, hplace]
    exact Table.level_of_mem_walk hb.ordered v hv
  neighbours := fun _ _ _ h => (place_of_nodes hb hu h).2
  annotated := by
    rw [annotate, ← hb.layout]

end Unshared

end Tree

/-! ## Trees that are made -/

/-- The builder came about by adding nodes and comments to an empty one. -/
inductive Builder.Made : Builder → Prop
  | start (serial : Nat) : Made (Builder.start serial)
  | add {b b' : Builder} (hb : Made b) {span : Span} {kind : Kind Nat} {options : Options}
    (h : b.add span kind options = .ok b') : Made b'
  | addLiteral {b : Builder} (hb : Made b) (span : Span) (value type : String) : Made (b.addLiteral span value type)
  | attach {b : Builder} (hb : Made b) (id : Nat) (comment : Comment) : Made (b.attach id comment)

theorem Builder.Made.ordered {b : Builder} (h : b.Made) : b.table.Ordered := by
  induction h with
  | start serial => exact Table.ordered_empty
  | add _ h ih => exact ordered_of_add ih h
  | addLiteral _ span value type ih => exact ih.push (by simp [Kind.children, Kind.fields])
  | @attach b _ id comment ih =>
    have hsame : Table.SameKinds (b.attach id comment).table b.table := by
      intro n
      rw [Builder.attach, Table.get?_modify]
      split
      · rw [Option.map_map]
        rfl
      · rfl
    intro n child hchild
    rw [hsame.children_eq] at hchild
    exact ih n child hchild

/-- The tree was finished by a builder; it may have taken identities over from another tree, and may have been laid
out again or given another depth. -/
inductive Tree.Made : Tree → Prop
  | finish {b : Builder} (hb : b.Made) {roots : List Nat} {depth : Nat} {t : Tree} (h : b.finish roots depth = .ok t) :
    Made t
  | reconcile [Hasher] (old : Tree) {new : Tree} (h : Made new) : Made (old.reconcile new).1
  | annotate {t : Tree} (h : Made t) : Made t.annotate
  | withDepth {t : Tree} (h : Made t) (depth : Nat) : Made (t.withDepth depth)

namespace Tree

theorem Made.built {t : Tree} (h : t.Made) : t.Built := by
  induction h with
  | @finish b hb roots depth t h =>
    unfold Builder.finish at h
    split at h
    · cases h
    · next hnone =>
      cases h
      refine ⟨hb.ordered, fun root hroot => ?_, rfl⟩
      show root < b.table.size
      simpa using List.find?_eq_none.mp hnone root hroot
  | reconcile old _ ih => exact ih.reconcile old
  | annotate _ ih => exact ⟨ih.ordered, ih.roots_lt, rfl⟩
  | withDepth _ depth ih => exact ih.withDepth depth

/-- In every tree that a builder finishes without sharing a node, the places of the nodes number the forest in document
order, also after it has taken identities over or was laid out again; and laying it out again changes nothing. -/
theorem Made.laidOut {t : Tree} (h : t.Made) (hu : t.Unshared) : t.LaidOut := laidOut_of_built h.built hu

theorem made_ofCall (serial : Nat) (argument : String) : (ofCall serial argument).Made := by
  have hf := (Builder.Made.start serial).addLiteral (.empty .zero) "f" "symbol"
  have hleaves := hf.addLiteral (.empty .zero) argument "symbol"
  have hcall := hleaves.add (show Builder.add _ (.empty .zero) (.application 0 [1])
    (Options.labelled ("f of " ++ argument)) = .ok (Builder.push _ _ _ _) from rfl)
  exact .finish hcall (show Builder.finish _ [2] defaultDepth = _ from rfl)

/-- An application that has taken over the identity of another: the argument is its second child. -/
theorem Made.laidOut_ofCall : ((ofCall 0 "a").reconcile (ofCall 3 "b")).1.LaidOut ∧
    ((ofCall 0 "a").reconcile (ofCall 3 "b")).1.byPath? ⟨[0, 1]⟩ = some 1 := by
  have hu : ((ofCall 0 "a").reconcile (ofCall 3 "b")).1.Unshared := by
    unfold Unshared
    rw [at?_reconcile]
    exact unshared_of_nodup (by decide)
  have hlaid := Made.laidOut (.reconcile (ofCall 0 "a") (made_ofCall 3 "b")) hu
  have hpath := Built.byPath?_eq_follow? (Made.built (.reconcile (ofCall 0 "a") (made_ofCall 3 "b"))) ⟨[0, 1]⟩
  refine ⟨hlaid, hpath.trans ?_⟩
  decide +kernel

end Tree

end StructuralEditor
