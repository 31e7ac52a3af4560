import StructuralEditor.Proofs.Tree.Lineage

/-!
# What cursors find in a forest

A cursor goes down from the first root that it touches to the first child that it touches, and so on.

* `Tree.Built.innermost_eq`, `Tree.Built.innermost_spec` : where a way down ends;
* `Tree.touches_of_containing?` : the cursor touches all nodes on its way down;
* `Path.leads_common_iff`, `Tree.exists_node_of_leads` : the longest path that leads to two nodes is that of a node;
* `Tree.Meets`, `Tree.meets_of_common` : it is the path of the lowest node above both;
* `Tree.Joins`, `Tree.CursorsMeet`, `Tree.Built.cursorsMeet` : the node that two cursors are in.
-/

namespace StructuralEditor

theorem find?_eq_some_of_first {α : Type} {R : α → α → Prop} {as : List α} {p : α → Bool} {a : α} (h : as.Pairwise R)
    (ha : a ∈ as) (hp : p a = true) (hfirst : ∀ b ∈ as, R b a → p b ≠ true) : as.find? p = some a := by
  cases hfind : as.find? p with
  | none => exact absurd hp (List.find?_eq_none.mp hfind a ha)
  | some b =>
    obtain ⟨hb, before, behind, rfl, hbefore⟩ := List.find?_eq_some_iff_append.mp hfind
    rcases List.mem_append.mp ha with ha | ha
    · have hnot := hbefore a ha
      rw [hp] at hnot
      cases hnot
    · rcases List.mem_cons.mp ha with rfl | ha
      · rfl
      · have hR := (List.pairwise_cons.mp (List.pairwise_append.mp h).2.1).1 a ha
        exact absurd hb (hfirst b (by simp) hR)

/-! ## Common beginnings -/

namespace Path

variable {p q r : Path}

theorem prefix_shared_iff {front as bs : List Nat} : front <+: shared as bs ↔ front <+: as ∧ front <+: bs := by
  induction as generalizing front bs with
  | nil => cases bs <;> simp +contextual [shared]
  | cons a as ih =>
    cases bs with
    | nil => simp +contextual [shared]
    | cons b bs =>
      cases front with
      | nil => simp
      | cons c front =>
        rw [shared]
        by_cases hab : a = b
        · subst hab
          rw [if_pos rfl, List.cons_prefix_cons, List.cons_prefix_cons, List.cons_prefix_cons, ih]
          exact and_and_left
        · rw [if_neg hab, List.cons_prefix_cons, List.cons_prefix_cons]
          refine iff_of_false (by simp) ?_
          rintro ⟨⟨rfl, -⟩, rfl, -⟩
          exact hab rfl

theorem leads_common_iff : p.leads (q.common r) = true ↔ p.leads q = true ∧ p.leads r = true := by
  rw [leads_iff, leads_iff, leads_iff]
  exact prefix_shared_iff

theorem leads_refl (p : Path) : p.leads p = true := leads_iff.mpr List.prefix_rfl

theorem common_comm (p q : Path) : p.common q = q.common p := by
  have hleads : ∀ p q : Path, (p.common q).leads (q.common p) = true := by
    intro p q
    obtain ⟨hp, hq⟩ := leads_common_iff.mp (p.common q).leads_refl
    exact leads_common_iff.mpr ⟨hq, hp⟩
  have hpq := leads_iff.mp (hleads p q)
  have hqp := leads_iff.mp (hleads q p)
  exact congrArg mk (hpq.eq_of_length (Nat.le_antisymm hpq.length_le hqp.length_le))

theorem eq_empty_of_leads_empty (h : p.leads empty = true) : p = empty :=
  congrArg mk (List.prefix_nil.mp (leads_iff.mp h))

theorem isEmpty_iff : p.isEmpty = true ↔ p = empty := by
  obtain ⟨segments⟩ := p
  rw [isEmpty, List.isEmpty_iff, empty, mk.injEq]

end Path

namespace Tree

variable {t : Tree} {p q : Position} {id child n m a : Nat}

/-! ## Ways down -/

namespace Built

theorem innermost_of_find? (h : t.Built) (hfind : (t.children id).find? (t.touches p) = some child) :
    t.innermost p id = t.innermost p child := by
  rw [innermost, hfind]
  exact if_pos (h.ordered id child (List.mem_of_find?_eq_some hfind))

theorem innermost_of_none (hfind : (t.children id).find? (t.touches p) = none) : t.innermost p id = id := by
  rw [innermost, hfind]

/-- A way down where every node is the first one touched leads to its end. -/
theorem innermost_eq (h : t.Built)
    (hstep : ∀ id ∈ t.nodes, ∀ child ∈ t.children id, n ∈ t.descendants child →
      (t.children id).find? (t.touches p) = some child)
    (hstop : ∀ child ∈ t.children n, t.touches p child ≠ true) :
    ∀ id ∈ t.nodes, n ∈ t.descendants id → t.innermost p id = n := by
  refine h.below_induction fun id hid ih hn => ?_
  rcases (h.mem_descendants_iff hid).mp hn with rfl | ⟨child, hchild, hn⟩
  · exact innermost_of_none (List.find?_eq_none.mpr hstop)
  · rw [h.innermost_of_find? (hstep id hid child hchild hn)]
    exact ih child hchild hn

/-- What is found innermost is below, and no child of it is touched. -/
theorem innermost_spec (h : t.Built) : ∀ id ∈ t.nodes, t.innermost p id ∈ t.descendants id ∧
    (t.innermost p id = id ∨
      (∃ above ∈ t.nodes, t.innermost p id ∈ t.children above) ∧ t.touches p (t.innermost p id) = true) ∧
    ∀ child ∈ t.children (t.innermost p id), t.touches p child ≠ true := by
  refine h.below_induction fun id hid ih => ?_
  cases hfind : (t.children id).find? (t.touches p) with
  | none =>
    rw [innermost_of_none hfind]
    exact ⟨h.self_mem_descendants hid, .inl rfl, List.find?_eq_none.mp hfind⟩
  | some child =>
    have hchild := List.mem_of_find?_eq_some hfind
    rw [h.innermost_of_find? hfind]
    obtain ⟨hbelow, htouched, hstop⟩ := ih child hchild
    refine ⟨(h.mem_descendants_iff hid).mpr (.inr ⟨child, hchild, hbelow⟩), .inr ?_, hstop⟩
    rcases htouched with heq | htouched
    · rw [heq]
      exact ⟨⟨id, hid, hchild⟩, List.find?_some hfind⟩
    · exact htouched

theorem mem_of_containing? (h : t.Built) (hm : t.containing? p = some m) : m ∈ t.nodes := by
  obtain ⟨root, hroot, rfl⟩ := Option.map_eq_some_iff.mp hm
  have hmem := h.root_mem (List.mem_of_find?_eq_some hroot)
  exact (h.descendants_subset root hmem _ (h.innermost_spec root hmem).1).1

theorem not_touches_child_of_containing? (h : t.Built) (hm : t.containing? p = some m) :
    ∀ child ∈ t.children m, t.touches p child ≠ true := by
  obtain ⟨root, hroot, rfl⟩ := Option.map_eq_some_iff.mp hm
  exact (h.innermost_spec root (h.root_mem (List.mem_of_find?_eq_some hroot))).2.2

end Built

theorem containing?_eq_none_iff : t.containing? p = none ↔ ∀ root ∈ t.roots, t.touches p root = false := by
  rw [containing?, Option.map_eq_none_iff, List.find?_eq_none]
  simp only [Bool.not_eq_true]

/-- The node `a` is the lowest one that has both `m` and `n` below it, where a node is below itself. -/
structure Meets (t : Tree) (m n a : Nat) : Prop where
  mem : a ∈ t.nodes
  left : m ∈ t.descendants a
  right : n ∈ t.descendants a
  lowest : ∀ b ∈ t.nodes, m ∈ t.descendants b → n ∈ t.descendants b → a ∈ t.descendants b

section Unshared

variable (hb : t.Built) (hu : t.Unshared)

include hb hu

/-- On the way down from a touched node, every node above the last one is above the first one or touched. -/
theorem above_or_touches : ∀ id ∈ t.nodes, t.touches p id = true →
    ∀ a, t.Above a (t.innermost p id) → t.Above a id ∨ t.touches p a = true := by
  refine hb.below_induction fun id hid ih htouch a ha => ?_
  cases hfind : (t.children id).find? (t.touches p) with
  | none =>
    rw [Built.innermost_of_none hfind] at ha
    exact .inl ha
  | some child =>
    have hchild := List.mem_of_find?_eq_some hfind
    rw [hb.innermost_of_find? hfind] at ha
    rcases ih child hchild (List.find?_some hfind) a ha with habove | htouched
    · rcases (above_child_iff hb hu hid hchild).mp habove with rfl | habove
      · exact .inr htouch
      · exact .inl habove
    · exact .inr htouched

/-- The cursor touches the node that it finds and all nodes above it. -/
theorem touches_of_containing? (hm : t.containing? p = some m) (ha : a ∈ t.nodes) (hbelow : m ∈ t.descendants a) :
    t.touches p a = true := by
  obtain ⟨root, hroot, rfl⟩ := Option.map_eq_some_iff.mp hm
  have htouch := List.find?_some hroot
  have hroot := List.mem_of_find?_eq_some hroot
  have hmem := hb.root_mem hroot
  by_cases heq : a = t.innermost p root
  · rcases (hb.innermost_spec (p := p) root hmem).2.1 with hsame | ⟨-, htouched⟩
    · rw [heq, hsame]
      exact htouch
    · rw [heq]
      exact htouched
  · rcases above_or_touches hb hu root hmem htouch a ⟨ha, heq, hbelow⟩ with habove | htouched
    · exact absurd habove (not_above_root hb hu hroot)
    · exact htouched

/-! ## The lowest node above two -/

theorem leads_path_iff (ha : a ∈ t.nodes) (hid : id ∈ t.nodes) :
    (t.path a).leads (t.path id) = true ↔ id ∈ t.descendants a := by
  have hsame : t.path a = t.path id ↔ a = id :=
    ⟨(laidOut_of_built hb hu).path_inj a ha id hid, congrArg t.path⟩
  rw [Path.leads_iff_eq_or_strict, leads_path_iff_above hb hu ha id hid, hsame]
  constructor
  · rintro (rfl | habove)
    · exact hb.self_mem_descendants ha
    · exact habove.below
  · intro hbelow
    by_cases heq : a = id
    · exact .inl heq
    · exact .inr ⟨ha, heq, hbelow⟩

/-- A path that leads to a node, and is not empty, is the path of a node. -/
theorem exists_node_of_leads : ∀ id ∈ t.nodes, ∀ path : Path, path ≠ Path.empty → path.leads (t.path id) = true →
    ∃ a ∈ t.nodes, t.path a = path := by
  refine hb.nodes_induction (fun root hroot path hne hleads => ?_) fun id hid ih child hchild path hne hleads => ?_
  · obtain ⟨index, hpath⟩ := exists_path_root hb hu hroot
    by_cases heq : path = t.path root
    · exact ⟨root, hb.root_mem hroot, heq.symm⟩
    · rw [hpath] at hleads heq
      have hempty := Path.leads_child_and_ne_iff.mp ⟨hleads, heq⟩
      exact absurd (Path.eq_empty_of_leads_empty hempty) hne
  · obtain ⟨index, hpath⟩ := exists_path_child hb hu hid hchild
    by_cases heq : path = t.path child
    · exact ⟨child, hb.child_mem hid hchild, heq.symm⟩
    · rw [hpath] at hleads heq
      exact ih path hne (Path.leads_child_and_ne_iff.mp ⟨hleads, heq⟩)

/-- The longest path that leads to two nodes is that of the lowest node above both. -/
theorem meets_of_common (hm : m ∈ t.nodes) (hn : n ∈ t.nodes) (hne : (t.path m).common (t.path n) ≠ Path.empty) :
    ∃ a, t.path a = (t.path m).common (t.path n) ∧ t.Meets m n a := by
  obtain ⟨hleft, hright⟩ := Path.leads_common_iff.mp ((t.path m).common (t.path n)).leads_refl
  obtain ⟨a, ha, hpath⟩ := exists_node_of_leads hb hu m hm _ hne hleft
  rw [← hpath] at hleft hright
  refine ⟨a, hpath, ha, (leads_path_iff hb hu ha hm).mp hleft, (leads_path_iff hb hu ha hn).mp hright, ?_⟩
  intro b hmem hmb hnb
  rw [← leads_path_iff hb hu hmem ha, hpath]
  exact Path.leads_common_iff.mpr ⟨(leads_path_iff hb hu hmem hm).mpr hmb, (leads_path_iff hb hu hmem hn).mpr hnb⟩

/-- No path leads to two nodes that are under different roots, and to no others. -/
theorem common_eq_empty_iff (hm : m ∈ t.nodes) (hn : n ∈ t.nodes) : (t.path m).common (t.path n) = Path.empty ↔
    ∀ root ∈ t.roots, ¬ (m ∈ t.descendants root ∧ n ∈ t.descendants root) := by
  constructor
  · rintro hempty root hroot ⟨hmr, hnr⟩
    have hmem := hb.root_mem hroot
    have hleads := Path.leads_common_iff.mpr
      ⟨(leads_path_iff hb hu hmem hm).mpr hmr, (leads_path_iff hb hu hmem hn).mpr hnr⟩
    obtain ⟨index, hpath⟩ := exists_path_root hb hu hroot
    rw [hempty, hpath, Path.not_leads_empty_of_child] at hleads
    cases hleads
  · intro happart
    by_contra hne
    obtain ⟨a, -, hmeets⟩ := meets_of_common hb hu hm hn hne
    obtain ⟨root, hroot, hbelow⟩ := hb.exists_root hmeets.mem
    have hmem := hb.root_mem hroot
    exact happart root hroot
      ⟨hb.descendants_trans root hmem a hbelow hmeets.left, hb.descendants_trans root hmem a hbelow hmeets.right⟩

end Unshared

/-! ## The node that two cursors are in -/

theorem commonAncestor?_eq_none_of_left (hp : t.containing? p = none) : t.commonAncestor? p q = none := by
  rw [commonAncestor?, hp]
  rfl

theorem commonAncestor?_eq_none_of_right (hq : t.containing? q = none) : t.commonAncestor? p q = none := by
  rw [commonAncestor?, hq]
  cases t.containing? p <;> rfl

theorem commonAncestor?_of_containing? (hm : t.containing? p = some m) (hn : t.containing? q = some n) :
    t.commonAncestor? p q =
      if p = q ∧ ((t.span m).start = p ∨ (t.span m).stop = p) then (t.parent? m).map t.path
      else if (t.path m).common (t.path n) = Path.empty then none else some ((t.path m).common (t.path n)) := by
  rw [commonAncestor?, hm, hn]
  simp only [Option.bind_eq_bind, Option.bind_some, Path.isEmpty_iff]
  refine if_congr Iff.rfl ?_ rfl
  cases t.parent? m <;> rfl

theorem commonAncestor?_comm (t : Tree) (p q : Position) : t.commonAncestor? p q = t.commonAncestor? q p := by
  by_cases hpq : p = q
  · rw [hpq]
  · cases hm : t.containing? p with
    | none => rw [commonAncestor?_eq_none_of_left hm, commonAncestor?_eq_none_of_right hm]
    | some m =>
      cases hn : t.containing? q with
      | none => rw [commonAncestor?_eq_none_of_left hn, commonAncestor?_eq_none_of_right hn]
      | some n =>
        have hleft : ¬ (p = q ∧ ((t.span m).start = p ∨ (t.span m).stop = p)) := fun h => hpq h.1
        have hright : ¬ (q = p ∧ ((t.span n).start = q ∨ (t.span n).stop = q)) := fun h => hpq h.1.symm
        rw [commonAncestor?_of_containing? hm hn, commonAncestor?_of_containing? hn hm, if_neg hleft, if_neg hright,
          Path.common_comm]

/-- The node `a` is the one that two cursors are in: the lowest one above the nodes that they find; but for a single
cursor at an edge of the node that it finds, the parent of that. -/
inductive Joins (t : Tree) (p q : Position) (a : Nat) : Prop
  | lowest {m n : Nat} (left : t.containing? p = some m) (right : t.containing? q = some n)
    (inside : ¬ (p = q ∧ ((t.span m).start = p ∨ (t.span m).stop = p))) (meets : t.Meets m n a)
  | parent {m : Nat} (found : t.containing? p = some m) (single : p = q)
    (edge : (t.span m).start = p ∨ (t.span m).stop = p) (mem : a ∈ t.nodes) (child : m ∈ t.children a)

/-- The path that is answered for two cursors leads to the node that they are in, which both touch; it is the same in
whichever order they are given; and there is none only if a cursor touches no root, or they find nodes under different
roots, or a single cursor finds a root at an edge of that. -/
structure CursorsMeet (t : Tree) (p q : Position) : Prop where
  found : ∀ path, t.commonAncestor? p q = some path →
    ∃ a, t.byPath? path = some a ∧ t.touches p a = true ∧ t.touches q a = true ∧ t.Joins p q a
  symm : t.commonAncestor? p q = t.commonAncestor? q p
  missed : t.commonAncestor? p q = none ↔
    (∀ root ∈ t.roots, t.touches p root = false) ∨ (∀ root ∈ t.roots, t.touches q root = false) ∨
    ∃ m n, t.containing? p = some m ∧ t.containing? q = some n ∧
      ((∀ root ∈ t.roots, ¬ (m ∈ t.descendants root ∧ n ∈ t.descendants root)) ∨
        p = q ∧ m ∈ t.roots ∧ ((t.span m).start = p ∨ (t.span m).stop = p))

section Unshared

variable (hb : t.Built) (hu : t.Unshared)

include hb hu

theorem exists_of_commonAncestor? {path : Path} (h : t.commonAncestor? p q = some path) :
    ∃ a ∈ t.nodes, t.path a = path ∧ t.Joins p q a := by
  cases hm : t.containing? p with
  | none => cases (commonAncestor?_eq_none_of_left hm).symm.trans h
  | some m =>
    cases hn : t.containing? q with
    | none => cases (commonAncestor?_eq_none_of_right hn).symm.trans h
    | some n =>
      have hmem := hb.mem_of_containing? hm
      rw [commonAncestor?_of_containing? hm hn] at h
      split at h
      · next hedge =>
        obtain ⟨a, hparent, rfl⟩ := Option.map_eq_some_iff.mp h
        obtain ⟨ha, hchild⟩ := (parent?_eq_some_iff hb hu hmem).mp hparent
        exact ⟨a, ha, rfl, .parent hm hedge.1 hedge.2 ha hchild⟩
      · next hinside =>
        split at h
        · cases h
        · next hne =>
          cases h
          obtain ⟨a, hpath, hmeets⟩ := meets_of_common hb hu hmem (hb.mem_of_containing? hn) hne
          exact ⟨a, hmeets.mem, hpath, .lowest hm hn hinside hmeets⟩

theorem Joins.touches (h : t.Joins p q a) : t.touches p a = true ∧ t.touches q a = true := by
  cases h with
  | lowest left right _ meets =>
    exact ⟨touches_of_containing? hb hu left meets.mem meets.left,
      touches_of_containing? hb hu right meets.mem meets.right⟩
  | parent found single _ mem child =>
    subst single
    have hbelow := hb.self_mem_descendants (hb.child_mem mem child)
    have htouch := touches_of_containing? hb hu found mem
      ((hb.mem_descendants_iff mem).mpr (.inr ⟨_, child, hbelow⟩))
    exact ⟨htouch, htouch⟩

theorem parent?_eq_none_iff (hid : id ∈ t.nodes) : t.parent? id = none ↔ id ∈ t.roots := by
  rw [parent?_eq_parent hb hu hid]
  exact parent_eq_none_iff hb hu hid

theorem commonAncestor?_eq_none_iff (hm : t.containing? p = some m) (hn : t.containing? q = some n) :
    t.commonAncestor? p q = none ↔
      (∀ root ∈ t.roots, ¬ (m ∈ t.descendants root ∧ n ∈ t.descendants root)) ∨
        p = q ∧ m ∈ t.roots ∧ ((t.span m).start = p ∨ (t.span m).stop = p) := by
  have hmem := hb.mem_of_containing? hm
  rw [commonAncestor?_of_containing? hm hn, ← common_eq_empty_iff hb hu hmem (hb.mem_of_containing? hn)]
  split
  · next hedge =>
    obtain ⟨rfl, hedge⟩ := hedge
    obtain rfl : m = n := Option.some_inj.mp (hm.symm.trans hn)
    obtain ⟨root, hroot, hbelow⟩ := hb.exists_root hmem
    have hne : (t.path m).common (t.path m) ≠ Path.empty := fun hempty =>
      (common_eq_empty_iff hb hu hmem hmem).mp hempty root hroot ⟨hbelow, hbelow⟩
    rw [Option.map_eq_none_iff, parent?_eq_none_iff hb hu hmem, or_iff_right hne]
    exact ⟨fun hroot => ⟨rfl, hroot, hedge⟩, fun h => h.2.1⟩
  · next hinside =>
    have hnot : ¬ (p = q ∧ m ∈ t.roots ∧ ((t.span m).start = p ∨ (t.span m).stop = p)) :=
      fun h => hinside ⟨h.1, h.2.2⟩
    rw [or_iff_left hnot]
    split
    · next hempty => exact iff_of_true rfl hempty
    · next hne => exact iff_of_false nofun hne

end Unshared

/-- In every forest without shared nodes, two cursors are answered the path of the node that they are in. -/
theorem Built.cursorsMeet (hb : t.Built) (hu : t.Unshared) (p q : Position) : t.CursorsMeet p q where
  found := by
    intro path h
    obtain ⟨a, ha, hpath, hjoins⟩ := exists_of_commonAncestor? hb hu h
    obtain ⟨hp, hq⟩ := hjoins.touches hb hu
    exact ⟨a, ((laidOut_of_built hb hu).byPath path a).mpr ⟨ha, hpath⟩, hp, hq, hjoins⟩
  symm := t.commonAncestor?_comm p q
  missed := by
    rw [← containing?_eq_none_iff, ← containing?_eq_none_iff]
    cases hm : t.containing? p with
    | none => exact iff_of_true (commonAncestor?_eq_none_of_left hm) (.inl rfl)
    | some m =>
      cases hn : t.containing? q with
      | none => exact iff_of_true (commonAncestor?_eq_none_of_right hn) (.inr (.inl rfl))
      | some n => simp [commonAncestor?_eq_none_iff hb hu hm hn]

/-- The forest of `(f x)`, with the stretches that its nodes take of the text. -/
def ofWrittenCall : Tree :=
  let leaves := ((Builder.start 0).addLiteral ⟨⟨0, 1⟩, ⟨0, 2⟩⟩ "f" "symbol").addLiteral ⟨⟨0, 3⟩, ⟨0, 4⟩⟩ "x" "symbol"
  let call := leaves.push ⟨⟨0, 0⟩, ⟨0, 5⟩⟩ (.application 0 [1]) (Options.labelled "f expression")
  ofTable call.table [2] defaultDepth

/-- Cursors in the function and in its argument are in the application, and so is a single cursor before the function;
one before the application is in no node. -/
theorem Built.cursorsMeet_ofWrittenCall :
    ofWrittenCall.CursorsMeet ⟨0, 2⟩ ⟨0, 3⟩ ∧ ofWrittenCall.commonAncestor? ⟨0, 2⟩ ⟨0, 3⟩ = some ⟨[0]⟩ ∧
    ofWrittenCall.CursorsMeet ⟨0, 1⟩ ⟨0, 1⟩ ∧ ofWrittenCall.commonAncestor? ⟨0, 1⟩ ⟨0, 1⟩ = some ⟨[0]⟩ ∧
    ofWrittenCall.CursorsMeet ⟨0, 0⟩ ⟨0, 0⟩ ∧ ofWrittenCall.commonAncestor? ⟨0, 0⟩ ⟨0, 0⟩ = none := by
  have hordered : ofWrittenCall.table.Ordered := by
    refine ((Table.ordered_empty.push ?_).push ?_).push ?_
    all_goals simp [Kind.children, Kind.fields, Field.nodes, Table.size, Table.push, Table.empty]
  have hb : ofWrittenCall.Built := ⟨hordered, by decide, rfl⟩
  have hu : ofWrittenCall.Unshared := unshared_of_nodup (by decide)
  refine ⟨Built.cursorsMeet hb hu _ _, by decide +kernel, Built.cursorsMeet hb hu _ _, ?_,
    Built.cursorsMeet hb hu _ _, by decide +kernel⟩
  have hfound : ofWrittenCall.containing? ⟨0, 1⟩ = some 0 := by decide +kernel
  have hparent : ofWrittenCall.parent? 0 = some 2 :=
    (parent?_eq_some_iff hb hu (hb.mem_of_containing? hfound)).mpr ⟨by decide +kernel, by decide⟩
  rw [commonAncestor?_of_containing? hfound hfound, if_pos (by decide), hparent]
  decide +kernel

end Tree

end StructuralEditor
