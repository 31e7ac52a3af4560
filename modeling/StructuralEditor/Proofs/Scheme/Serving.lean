import StructuralEditor.Proofs.Scheme.Identities
import StructuralEditor.Proofs.Scheme.Planning

/-!
# First come, first served

A comment that waits at a position is claimed by every node that starts there, and by every root that spans the
position, its ends included. It goes to the node that was made first.

* `Table.Claims`, `Table.Receives` : a node claims what waits at a position, and takes it if no older one claims it;
* `Served` : every node has the comments that it takes, and what nobody claims still waits;
* `Served.add`, `Served.giveRest`, `served_plantRoot` : so it stays while a program is planted;
* `served_plantProgram` : so it is in the tree of a program;
* `roots_pairwise_lt_plantProgram` : and there, a root is older than all that is below the later ones.
-/

namespace StructuralEditor

/-! ## Plans -/

namespace Scheme.CommentPlan

theorem mem_entries_of_find? {plan : CommentPlan} {k : Position} {c : Comment} (h : plan.find? k = some c) :
    (k, c) ∈ plan.entries := by
  obtain ⟨before, behind, hentries, -⟩ := List.lookup_eq_some_iff.mp h
  rw [hentries]
  exact List.mem_append_right _ List.mem_cons_self

theorem find?_of_mem_entries {plan : CommentPlan} (hdistinct : (plan.entries.map Prod.fst).Nodup) {k : Position}
    {c : Comment} (h : (k, c) ∈ plan.entries) : plan.find? k = some c := by
  obtain ⟨before, behind, hentries⟩ := List.append_of_mem h
  refine List.lookup_eq_some_iff.mpr ⟨before, behind, hentries, fun q hq => ?_⟩
  rw [hentries, List.map_append, List.map_cons] at hdistinct
  have hne := (List.nodup_append.mp hdistinct).2.2 q.1 (List.mem_map_of_mem hq) k List.mem_cons_self
  simpa using hne.symm

theorem distinct_erase {plan : CommentPlan} (h : (plan.entries.map Prod.fst).Nodup) (k : Position) :
    ((plan.erase k).entries.map Prod.fst).Nodup :=
  h.sublist (List.filter_sublist.map _)

theorem mem_inside_iff {plan : CommentPlan} {span : Span} {e : Position × Comment} :
    e ∈ plan.inside span ↔ e ∈ plan.entries ∧ span.start ≤ e.1 ∧ e.1 ≤ span.stop := by
  simp [inside]

theorem mem_inside_iff_find? {plan : CommentPlan} (h : (plan.entries.map Prod.fst).Nodup) {span : Span} {k : Position}
    {c : Comment} : (k, c) ∈ plan.inside span ↔ plan.find? k = some c ∧ span.start ≤ k ∧ k ≤ span.stop := by
  rw [mem_inside_iff]
  exact and_congr_left fun _ => ⟨find?_of_mem_entries h, mem_entries_of_find?⟩

theorem mem_keys_inside_iff {plan : CommentPlan} (h : (plan.entries.map Prod.fst).Nodup) {span : Span} {k : Position} :
    k ∈ (plan.inside span).map Prod.fst ↔ (plan.find? k).isSome ∧ span.start ≤ k ∧ k ≤ span.stop := by
  simp only [List.mem_map, Prod.exists, mem_inside_iff_find? h, exists_and_right, exists_eq_right,
    Option.isSome_iff_exists]

theorem distinct_inside {plan : CommentPlan} (h : (plan.entries.map Prod.fst).Nodup) (span : Span) :
    ((plan.inside span).map Prod.fst).Nodup := by
  have hperm := (List.mergeSort_perm (plan.entries.filter fun e => span.start ≤ e.1 ∧ e.1 ≤ span.stop)
    fun a b => a.1 ≤ b.1).map Prod.fst
  exact hperm.nodup_iff.mpr (h.sublist (List.filter_sublist.map _))

end Scheme.CommentPlan

/-! ## Claims -/

namespace Table

variable {t : Table} {roots : List Nat} {id : Nat} {k : Position} {node : Node}

/-- The node claims the comment that waits at the position: it starts there, or it is a root that spans it. -/
def Claims (t : Table) (roots : List Nat) (id : Nat) (k : Position) : Prop :=
  ∃ node, t.get? id = some node ∧
    (node.span.start = k ∨ id ∈ roots ∧ node.span.start ≤ k ∧ k ≤ node.span.stop)

/-- No older node claims what this one claims. -/
def Receives (t : Table) (roots : List Nat) (id : Nat) (k : Position) : Prop :=
  t.Claims roots id k ∧ ∀ other < id, ¬ t.Claims roots other k

theorem Receives.eq {other : Nat} (h : t.Receives roots id k) (h' : t.Receives roots other k) : id = other := by
  rcases Nat.lt_trichotomy id other with hlt | heq | hlt
  · exact absurd h.1 (h'.2 id hlt)
  · exact heq
  · exact absurd h'.1 (h.2 other hlt)

theorem Claims.lt_size (h : t.Claims roots id k) : id < t.size := by
  obtain ⟨node, hnode, -⟩ := h
  exact (Array.getElem?_eq_some_iff.mp hnode).1

theorem size_push (t : Table) (node : Node) : (t.push node).size = t.size + 1 := Array.size_push node

theorem claims_push (hroots : ∀ root ∈ roots, root < t.size) :
    (t.push node).Claims roots id k ↔ t.Claims roots id k ∨ id = t.size ∧ node.span.start = k := by
  unfold Claims
  rw [get?_push]
  by_cases hid : id = t.size
  · have hnone : t.get? id = none := Array.getElem?_eq_none (Nat.le_of_eq hid.symm)
    have hroot : id ∉ roots := fun hmem => (hroots id hmem).ne hid
    simp [hid ▸ hnone, hid ▸ hroot, hid]
  · simp [hid]

theorem claims_of_bare {u : Table} (h : t.bare = u.bare) : t.Claims roots id k ↔ u.Claims roots id k := by
  have hspan : ∀ t : Table, t.Claims roots id k ↔ ∃ span ∈ (t.bare[id]?).map Node.span,
      span.start = k ∨ id ∈ roots ∧ span.start ≤ k ∧ k ≤ span.stop := by
    intro t
    rw [getElem?_bare, Option.map_map]
    unfold Claims
    cases t.get? id with
    | none => simp
    | some node => simp [Node.bare]
  rw [hspan, h, ← hspan]

theorem claims_concat {root : Nat} (hnode : t.get? root = some node) : t.Claims (roots ++ [root]) id k ↔
    t.Claims roots id k ∨ id = root ∧ node.span.start ≤ k ∧ k ≤ node.span.stop := by
  unfold Claims
  constructor
  · rintro ⟨other, hother, hstart | ⟨hmem, hspan⟩⟩
    · exact .inl ⟨other, hother, .inl hstart⟩
    · rcases List.mem_append.mp hmem with hmem | hmem
      · exact .inl ⟨other, hother, .inr ⟨hmem, hspan⟩⟩
      · obtain rfl := List.mem_singleton.mp hmem
        cases hother.symm.trans hnode
        exact .inr ⟨rfl, hspan⟩
  · rintro (⟨other, hother, hstart | ⟨hmem, hspan⟩⟩ | ⟨rfl, hspan⟩)
    · exact ⟨other, hother, .inl hstart⟩
    · exact ⟨other, hother, .inr ⟨List.mem_append_left _ hmem, hspan⟩⟩
    · exact ⟨node, hnode, .inr ⟨List.mem_append_right _ List.mem_cons_self, hspan⟩⟩

theorem receives_of_bare {u : Table} (h : t.bare = u.bare) : t.Receives roots id k ↔ u.Receives roots id k := by
  simp only [Receives, claims_of_bare h]

/-- A node on top of the table leaves the older ones what they take. -/
theorem receives_push_of_lt (hroots : ∀ root ∈ roots, root < t.size) (hid : id < t.size) :
    (t.push node).Receives roots id k ↔ t.Receives roots id k := by
  have hclaims : ∀ other < t.size, ((t.push node).Claims roots other k ↔ t.Claims roots other k) := by
    intro other hother
    simp [claims_push hroots, hother.ne]
  refine and_congr (hclaims id hid) (forall₂_congr fun other hother => ?_)
  rw [hclaims other (hother.trans hid)]

theorem receives_push_size (hroots : ∀ root ∈ roots, root < t.size) :
    (t.push node).Receives roots t.size k ↔ k = node.span.start ∧ ∀ other, ¬ t.Claims roots other k := by
  have hself : ¬ t.Claims roots t.size k := fun hclaims => lt_irrefl _ hclaims.lt_size
  simp only [Receives, claims_push hroots, hself, false_or, true_and, eq_comm (b := k)]
  refine and_congr_right fun _ => ⟨fun hothers other hclaims => ?_, fun hothers other hother hclaims => ?_⟩
  · exact hothers other hclaims.lt_size (.inl hclaims)
  · rcases hclaims with hclaims | ⟨heq, -⟩
    · exact hothers other hclaims
    · exact hother.ne heq

/-- A node that becomes a root leaves the older ones what they take. -/
theorem receives_concat_of_lt {root : Nat} (hnode : t.get? root = some node) (hid : id < root) :
    t.Receives (roots ++ [root]) id k ↔ t.Receives roots id k := by
  have hclaims : ∀ other < root, (t.Claims (roots ++ [root]) other k ↔ t.Claims roots other k) := by
    intro other hother
    simp [claims_concat hnode, hother.ne]
  refine and_congr (hclaims id hid) (forall₂_congr fun other hother => ?_)
  rw [hclaims other (hother.trans hid)]

/-- If it is the youngest, it also takes what nobody claims where it spans. -/
theorem receives_concat_self {root : Nat} (hnode : t.get? root = some node) (htop : root + 1 = t.size) :
    t.Receives (roots ++ [root]) root k ↔ t.Receives roots root k ∨
      (∀ other, ¬ t.Claims roots other k) ∧ node.span.start ≤ k ∧ k ≤ node.span.stop := by
  have holder : (∀ other < root, ¬ t.Claims (roots ++ [root]) other k) ↔ ∀ other < root, ¬ t.Claims roots other k := by
    refine forall₂_congr fun other hother => ?_
    simp [claims_concat hnode, hother.ne]
  have hall : (∀ other, ¬ t.Claims roots other k) ↔
      ¬ t.Claims roots root k ∧ ∀ other < root, ¬ t.Claims roots other k := by
    refine ⟨fun hnone => ⟨hnone root, fun other _ => hnone other⟩, fun ⟨hself, hothers⟩ other hclaims => ?_⟩
    have := hclaims.lt_size
    rcases (show other ≤ root by omega).eq_or_lt with rfl | hlt
    · exact hself hclaims
    · exact hothers other hlt hclaims
  unfold Receives
  rw [holder, hall, claims_concat hnode]
  by_cases hself : t.Claims roots root k <;> simp [hself, and_comm]

end Table

namespace Scheme

/-- Every node has the comments that it takes, as one, and what nobody claims still waits. -/
structure Served (plan : CommentPlan) (roots : List Nat) (p : Planting) : Prop where
  older : ∀ root ∈ roots, root < p.table.size
  distinct : (p.waiting.entries.map Prod.fst).Nodup
  claimed : ∀ {k id}, p.table.Claims roots id k → p.waiting.find? k = none
  unclaimed : ∀ {k}, (∀ id, ¬ p.table.Claims roots id k) → p.waiting.find? k = plan.find? k
  taken : ∀ {id node}, p.table.get? id = some node → ∃ ks : List Position, ks.Nodup ∧
    (∀ k, k ∈ ks ↔ (plan.find? k).isSome ∧ p.table.Receives roots id k) ∧
    node.comment = joinAll (ks.filterMap plan.find?)

namespace Served

variable {plan : CommentPlan} {roots : List Nat} {p p' : Planting}

theorem start (serial : Nat) (h : (plan.entries.map Prod.fst).Nodup) : Served plan [] ⟨Builder.start serial, plan⟩ := by
  have hnone : ∀ id : Nat, (Builder.start serial).table.get? id = none := fun id => by
    simp [Builder.start, Table.get?, Table.empty]
  refine ⟨by simp, h, ?_, fun _ => rfl, fun {id node} hnode => ?_⟩
  · rintro k id ⟨node, hnode, -⟩
    rw [hnone] at hnode
    cases hnode
  · rw [hnone] at hnode
    cases hnode

theorem find?_eq (h : Served plan roots p) {k : Position} {c : Comment} (hc : p.waiting.find? k = some c) :
    plan.find? k = some c ∧ ∀ id, ¬ p.table.Claims roots id k := by
  have hunclaimed : ∀ id, ¬ p.table.Claims roots id k := by
    intro id hclaims
    rw [h.claimed hclaims] at hc
    cases hc
  exact ⟨by rw [← h.unclaimed hunclaimed, hc], hunclaimed⟩

theorem push (h : Served plan roots p) {node : Node} (htable : p'.table = p.table.push node)
    (hcomment : node.comment = p.waiting.find? node.span.start)
    (hdistinct : (p'.waiting.entries.map Prod.fst).Nodup)
    (hwaiting : ∀ k, p'.waiting.find? k = if k = node.span.start then none else p.waiting.find? k) :
    Served plan roots p' := by
  have hsize : p'.table.size = p.table.size + 1 := by rw [htable, Table.size_push]
  refine ⟨fun root hroot => (h.older root hroot).trans (by omega), hdistinct, ?_, ?_, ?_⟩
  · intro k id hclaims
    rw [hwaiting]
    split
    · rfl
    · next hne =>
      rw [htable, Table.claims_push h.older] at hclaims
      rcases hclaims with hclaims | ⟨-, rfl⟩
      · exact h.claimed hclaims
      · exact absurd rfl hne
  · intro k hunclaimed
    simp only [htable, Table.claims_push h.older, not_or, not_and] at hunclaimed
    rw [hwaiting, if_neg fun heq => (hunclaimed _).2 rfl heq.symm]
    exact h.unclaimed fun id => (hunclaimed id).1
  · intro id other hother
    rw [htable, Table.get?_push] at hother
    by_cases hid : id = p.table.size
    · subst hid
      rw [if_pos rfl] at hother
      cases hother
      have hreceives : ∀ k, p'.table.Receives roots p.table.size k ↔
          k = node.span.start ∧ ∀ other, ¬ p.table.Claims roots other k := fun k => by
        rw [htable, Table.receives_push_size h.older]
      cases hfind : p.waiting.find? node.span.start with
      | none =>
        refine ⟨[], .nil, fun k => ?_, by rw [hcomment, hfind]; rfl⟩
        simp only [List.not_mem_nil, false_iff, not_and, hreceives]
        rintro hsome rfl hunclaimed
        rw [← h.unclaimed hunclaimed, hfind] at hsome
        cases hsome
      | some c =>
        obtain ⟨hplan, hunclaimed⟩ := h.find?_eq hfind
        refine ⟨[node.span.start], List.nodup_singleton _, fun k => ?_, ?_⟩
        · rw [List.mem_singleton, hreceives]
          constructor
          · rintro rfl
            exact ⟨by rw [hplan]; rfl, rfl, hunclaimed⟩
          · exact fun hk => hk.2.1
        · rw [hcomment, hfind, List.filterMap_cons_some hplan, List.filterMap_nil, joinAll_singleton]
    · rw [if_neg hid] at hother
      have hlt : id < p.table.size := (Array.getElem?_eq_some_iff.mp hother).1
      obtain ⟨ks, hks, hmem, hjoin⟩ := h.taken hother
      refine ⟨ks, hks, fun k => ?_, hjoin⟩
      rw [hmem, htable, Table.receives_push_of_lt h.older hlt]

theorem add (h : Served plan roots p) (span : Span) (label : String) (kind : Kind Nat) :
    Served plan roots (Planting.add span label kind p).2 := by
  refine h.push (Planting.table_add span label kind p) rfl ?_ fun k => ?_
  · rw [Planting.waiting_add]
    split
    · exact CommentPlan.distinct_erase h.distinct _
    · exact h.distinct
  · show _ = if k = span.start then none else p.waiting.find? k
    rw [Planting.waiting_add]
    split
    · exact CommentPlan.find?_erase _ _ _
    · next hnone =>
      split
      · next heq => rw [heq, Option.not_isSome_iff_eq_none.mp hnone]
      · rfl

/-! ## What is left -/

theorem get?_foldl_give_of_ne {root id : Nat} (hid : id ≠ root) (entries : List (Position × Comment)) (p : Planting) :
    (entries.foldl (Planting.give root) p).table.get? id = p.table.get? id := by
  induction entries generalizing p with
  | nil => rfl
  | cons entry rest ih =>
    rw [List.foldl_cons, ih]
    show (p.table.modify root _).get? id = _
    rw [Table.get?_modify, if_neg (Ne.symm hid)]

theorem get?_foldl_give {root : Nat} (entries : List (Position × Comment)) {p : Planting} {node : Node}
    (h : p.table.get? root = some node) : (entries.foldl (Planting.give root) p).table.get? root =
      some { node with comment :=
        (entries.map Prod.snd).foldl (fun had c => some (joinComments had c)) node.comment } := by
  induction entries generalizing p node with
  | nil => exact h
  | cons entry rest ih =>
    have hgive : (Planting.give root p entry).table.get? root =
        some { node with comment := some (joinComments node.comment entry.2) } := by
      show (p.table.modify root _).get? root = _
      rw [Table.get?_modify, if_pos rfl, h]
      rfl
    rw [List.foldl_cons, ih hgive]
    rfl

theorem distinct_foldl_give (root : Nat) (entries : List (Position × Comment)) {p : Planting}
    (h : (p.waiting.entries.map Prod.fst).Nodup) :
    ((entries.foldl (Planting.give root) p).waiting.entries.map Prod.fst).Nodup := by
  induction entries generalizing p with
  | nil => exact h
  | cons entry rest ih => exact ih (CommentPlan.distinct_erase h entry.1)

theorem find?_foldl_give (root : Nat) (entries : List (Position × Comment)) (p : Planting) (k : Position) :
    (entries.foldl (Planting.give root) p).waiting.find? k =
      if k ∈ entries.map Prod.fst then none else p.waiting.find? k := by
  induction entries generalizing p with
  | nil => simp
  | cons entry rest ih =>
    have hgive : (Planting.give root p entry).waiting.find? k =
        if k = entry.1 then none else p.waiting.find? k := CommentPlan.find?_erase _ _ _
    rw [List.foldl_cons, ih, hgive, List.map_cons]
    split_ifs <;> simp_all

/-- The youngest node, as a root, has what it had and all that still waits where it spans. -/
theorem taken_giveRest (h : Served plan roots p) {root : Nat} {node : Node} (hroot : root + 1 = p.table.size)
    (hnode : p.table.get? root = some node) : ∃ ks : List Position, ks.Nodup ∧
      (∀ k, k ∈ ks ↔ (plan.find? k).isSome ∧ p.table.Receives (roots ++ [root]) root k) ∧
      ((p.waiting.inside node.span).map Prod.snd).foldl (fun had c => some (joinComments had c)) node.comment =
        joinAll (ks.filterMap plan.find?) := by
  obtain ⟨ks, hks, hmem, hjoin⟩ := h.taken hnode
  have hkeys : ∀ k, k ∈ (p.waiting.inside node.span).map Prod.fst ↔ (plan.find? k).isSome ∧
      (∀ id, ¬ p.table.Claims roots id k) ∧ node.span.start ≤ k ∧ k ≤ node.span.stop := by
    intro k
    rw [CommentPlan.mem_keys_inside_iff h.distinct]
    constructor
    · rintro ⟨hsome, hspan⟩
      obtain ⟨c, hc⟩ := Option.isSome_iff_exists.mp hsome
      obtain ⟨hplan, hnone⟩ := h.find?_eq hc
      exact ⟨Option.isSome_of_eq_some hplan, hnone, hspan⟩
    · rintro ⟨hsome, hnone, hspan⟩
      exact ⟨h.unclaimed hnone ▸ hsome, hspan⟩
  refine ⟨ks ++ (p.waiting.inside node.span).map Prod.fst, ?_, fun k => ?_, ?_⟩
  · refine List.nodup_append.mpr ⟨hks, CommentPlan.distinct_inside h.distinct _, fun k hk k' hk' heq => ?_⟩
    subst heq
    exact ((hkeys k).mp hk').2.1 root ((hmem k).mp hk).2.1
  · rw [List.mem_append, hmem, hkeys, Table.receives_concat_self hnode hroot, ← and_or_left]
  · have hvalues : ((p.waiting.inside node.span).map Prod.fst).filterMap plan.find? =
        (p.waiting.inside node.span).map Prod.snd := by
      rw [List.filterMap_map, ← List.filterMap_eq_map]
      refine List.filterMap_congr fun e he => ?_
      exact (h.find?_eq ((CommentPlan.mem_inside_iff_find? h.distinct).mp he).1).1
    rw [hjoin, List.filterMap_append, hvalues, joinAll, joinAll, List.foldl_append]

/-- The youngest node, as a root, takes all that still waits where it spans. -/
theorem giveRest (h : Served plan roots p) {root : Nat} {node : Node} (hroot : root + 1 = p.table.size)
    (hnode : p.table.get? root = some node) :
    Served plan (roots ++ [root]) (Planting.giveRest root node.span p) := by
  have hbare := bare_giveRest root node.span p
  have hclaims : ∀ {id k}, (Planting.giveRest root node.span p).table.Claims (roots ++ [root]) id k ↔
      p.table.Claims roots id k ∨ id = root ∧ node.span.start ≤ k ∧ k ≤ node.span.stop := by
    intro id k
    rw [Table.claims_of_bare hbare, Table.claims_concat hnode]
  have hsize : (Planting.giveRest root node.span p).table.size = p.table.size := by
    rw [← Table.length_bare, hbare, Table.length_bare]
  have hfind := find?_foldl_give root (p.waiting.inside node.span) p
  refine ⟨?_, distinct_foldl_give root _ h.distinct, fun {k id} hk => ?_, fun {k} hk => ?_, fun {id other} hother => ?_⟩
  · refine List.forall_mem_append.mpr ⟨fun other hother => ?_, List.forall_mem_singleton.mpr ?_⟩
    · exact hsize ▸ h.older other hother
    · omega
  · refine (hfind k).trans (ite_eq_left_iff.mpr fun hnot => ?_)
    rcases hclaims.mp hk with hk | ⟨-, hspan⟩
    · exact h.claimed hk
    · exact Option.not_isSome_iff_eq_none.mp fun hsome =>
        hnot ((CommentPlan.mem_keys_inside_iff h.distinct).mpr ⟨hsome, hspan⟩)
  · have hnot : k ∉ (p.waiting.inside node.span).map Prod.fst := fun hmem =>
      hk root (hclaims.mpr (.inr ⟨rfl, ((CommentPlan.mem_keys_inside_iff h.distinct).mp hmem).2⟩))
    rw [← h.unclaimed fun id hid => hk id (hclaims.mpr (.inl hid))]
    exact (hfind k).trans (if_neg hnot)
  · simp only [Table.receives_of_bare hbare]
    by_cases hid : id = root
    · subst hid
      cases (get?_foldl_give (p.waiting.inside node.span) hnode).symm.trans hother
      exact h.taken_giveRest hroot hnode
    · have hother' := (get?_foldl_give_of_ne hid (p.waiting.inside node.span) p).symm.trans hother
      have hlt : id < p.table.size := (Array.getElem?_eq_some_iff.mp hother').1
      obtain ⟨ks, hks, hmem, hjoin⟩ := h.taken hother'
      refine ⟨ks, hks, fun k => ?_, hjoin⟩
      rw [hmem, Table.receives_concat_of_lt hnode (by omega)]

/-! ## Planting -/

theorem plant (h : Served plan roots p) (d : Draft) : Served plan roots (d.plant p).2 := by
  induction d using Draft.children_induction generalizing p with
  | h span label kind ih =>
    obtain ⟨m, rfl, -, htrail⟩ := Kind.traverse_trail Draft.plant kind p
    rw [Draft.plant_run]
    refine Served.add (htrail.keeps (fun q hq p hp => ih q.1 ?_ hp) h) span label _
    rw [Kind.children_map]
    exact List.mem_map_of_mem hq

theorem top_plant (d : Draft) (p : Planting) : (d.plant p).1 + 1 = (d.plant p).2.table.size ∧
    ∃ node, (d.plant p).2.table.get? (d.plant p).1 = some node ∧ node.span = d.span := by
  obtain ⟨span, label, kind⟩ := d
  rw [Draft.plant_run, Planting.add_fst, Planting.table_add]
  exact ⟨(Table.size_push _ _).symm, _, by rw [Table.get?_push, if_pos rfl], rfl⟩

theorem plantRoot (h : Served plan roots p) (d : Draft) :
    Served plan (roots ++ [(d.plantRoot p).1]) (d.plantRoot p).2 := by
  obtain ⟨htop, node, hnode, hspan⟩ := top_plant d p
  show Served plan (roots ++ [(d.plant p).1]) (Planting.giveRest (d.plant p).1 d.span (d.plant p).2)
  rw [← hspan]
  exact (h.plant d).giveRest htop hnode

theorem plantRoots {ps : List (Draft × Nat)} (htrail : Trail Draft.plantRoot p ps p') (h : Served plan roots p) :
    Served plan (roots ++ ps.map Prod.snd) p' := by
  induction htrail generalizing roots with
  | nil p => simpa using h
  | @cons d p p' rest _ ih =>
    have hrest := ih (h.plantRoot d)
    rwa [List.append_assoc, List.singleton_append] at hrest

/-- A root where nothing is planned leaves everybody what they take. -/
theorem push_root (h : Served plan roots p) {node : Node} (hcomment : node.comment = none)
    (hfree : ∀ k, node.span.start ≤ k → k ≤ node.span.stop → plan.find? k = none)
    (hle : node.span.start ≤ node.span.stop) (htable : p'.table = p.table.push node)
    (hwaiting : p'.waiting = p.waiting) : Served plan (roots ++ [p.table.size]) p' := by
  have hnone : ∀ k, node.span.start ≤ k → k ≤ node.span.stop → p.waiting.find? k = none := by
    intro k hstart hstop
    by_contra hne
    obtain ⟨c, hc⟩ := Option.ne_none_iff_exists'.mp hne
    have hplan := (h.find?_eq hc).1
    rw [hfree k hstart hstop] at hplan
    cases hplan
  have hserved : Served plan roots p' := by
    refine h.push htable (by rw [hcomment, hnone _ le_rfl hle]) (hwaiting ▸ h.distinct) fun k => ?_
    rw [hwaiting]
    split
    · next heq => rw [heq, hnone _ le_rfl hle]
    · rfl
  have hinside : p'.waiting.inside node.span = [] := by
    refine List.eq_nil_iff_forall_not_mem.mpr fun e he => ?_
    obtain ⟨hmem, hstart, hstop⟩ := CommentPlan.mem_inside_iff.mp he
    have hfind := CommentPlan.find?_of_mem_entries hserved.distinct hmem
    rw [hwaiting, hnone _ hstart hstop] at hfind
    cases hfind
  have hget : (p.table.push node).get? p.table.size = some node := by
    rw [Table.get?_push, if_pos rfl]
  have hrest := hserved.giveRest (htable ▸ (Table.size_push p.table node).symm) (htable ▸ hget)
  rwa [Planting.giveRest, hinside, List.foldl_nil] at hrest

theorem plantTrailing (h : Served plan roots p) {trailing : Option Comment}
    (hfree : ∀ c ∈ trailing, c.span.start ≤ c.span.stop ∧
      ∀ k, c.span.start ≤ k → k ≤ c.span.stop → plan.find? k = none) :
    Served plan (roots ++ (Scheme.plantTrailing trailing p).1) (Scheme.plantTrailing trailing p).2 := by
  cases trailing with
  | none =>
    rw [show (Scheme.plantTrailing none p).1 = [] from rfl, List.append_nil]
    exact h
  | some c =>
    obtain ⟨hle, hfree⟩ := hfree c rfl
    have htable : (Scheme.plantTrailing (some c) p).2.table = p.table.push
        ⟨c.span, .comment c.text, Options.labelled c.text, p.builder.nextIdentity, none⟩ := rfl
    refine h.push_root ?_ hfree hle htable rfl
    rfl

end Served

/-- In the tree of a program, every node has the comments that it takes of the plan. -/
theorem served_plantProgram (depth serial : Nat) (items : List Item) (drafts : List Draft)
    (hfree : ∀ c ∈ (CommentPlan.ofItems items).2, c.span.start ≤ c.span.stop ∧
      ∀ k, c.span.start ≤ k → k ≤ c.span.stop → (CommentPlan.ofItems items).1.find? k = none) :
    ∃ p, p.table = (plantProgram depth serial items drafts).table ∧
      Served (CommentPlan.ofItems items).1 (plantProgram depth serial items drafts).roots p := by
  have hstart := Served.start serial (CommentPlan.holds_ofItems items).1.distinct
  obtain ⟨ps, -, hsnd, htrail⟩ := mapM_trail Draft.plantRoot drafts
    ⟨Builder.start serial, (CommentPlan.ofItems items).1⟩
  have hroots := hstart.plantRoots htrail
  rw [List.nil_append, ← hsnd] at hroots
  exact ⟨_, rfl, hroots.plantTrailing hfree⟩

/-! ## Younger roots -/

/-- What is planted later has later indices, and so do all children in it. -/
theorem Planted.size_le_of_mem {ps : List (Draft × Nat)} {p p' : Planting} (h : Planted ps p p') :
    (∀ q ∈ ps, p.table.size ≤ q.2) ∧
      ∀ id, p.table.size ≤ id → ∀ child ∈ p'.table.children id, p.table.size ≤ child := by
  obtain ⟨more, hmore⟩ := h.grow
  have hlisted : p'.table.listed = p.table.listed ++ more.flatMap (·.kind.children) := by
    rw [Table.listed_eq_of_bare, ← hmore, List.flatMap_append, ← Table.listed_eq_of_bare]
  have hperm : (ps.map Prod.snd ++ more.flatMap (·.kind.children)).Perm
      (List.range' p.table.size (p'.table.size - p.table.size)) := by
    have hall := h.listed
    rw [hlisted, ← List.append_assoc] at hall
    refine (List.perm_append_left_iff p.table.listed).mp (.trans ?_ hall)
    rw [← List.append_assoc]
    exact List.perm_append_comm.append_right _
  have hle : ∀ id ∈ ps.map Prod.snd ++ more.flatMap (·.kind.children), p.table.size ≤ id := fun id hid =>
    (List.mem_range'_1.mp (hperm.mem_iff.mp hid)).1
  refine ⟨fun q hq => hle _ (List.mem_append_left _ (List.mem_map_of_mem hq)), fun id hid child hchild => ?_⟩
  rw [Table.children_eq_of_bare, ← hmore, List.getElem?_append_right (by rwa [Table.length_bare])] at hchild
  cases hnode : more[id - p.table.bare.length]? with
  | none =>
    rw [hnode] at hchild
    cases hchild
  | some node =>
    rw [hnode] at hchild
    exact hle _ (List.mem_append_right _ (List.mem_flatMap.mpr ⟨node, List.mem_of_getElem? hnode, hchild⟩))

theorem Planted.size_le_of_mem_descendants {ps : List (Draft × Nat)} {p p' : Planting} (h : Planted ps p p')
    (ho : p'.table.Ordered) {id x : Nat} (hid : p.table.size ≤ id) (hx : x ∈ p'.table.descendants id) :
    p.table.size ≤ x := by
  induction id using Nat.strongRecOn with
  | ind id ih =>
    cases hnode : p'.table.get? id with
    | none =>
      have hsize : ¬ id < p'.table.size := Nat.not_lt.mpr (Array.getElem?_eq_none_iff.mp hnode)
      rw [Table.descendants, if_neg hsize] at hx
      cases hx
    | some node =>
      have hchildren : p'.table.children id = node.kind.children := by rw [Table.children, hnode]
      rw [Table.descendants_of_get? ho hnode, ← hchildren, List.mem_cons, List.mem_flatMap] at hx
      rcases hx with rfl | ⟨child, hchild, hx⟩
      · exact hid
      · exact ih child (ho id child hchild) (h.size_le_of_mem.2 id hid child hchild) hx

/-- Every root is older than the later roots and all that is below them. -/
theorem pairwise_lt_of_trail {ps qs : List (Draft × Nat)} {p p' p'' : Planting}
    (htrail : Trail Draft.plantRoot p ps p') (hlast : Planted qs p' p'') (hqs : qs.length ≤ 1)
    (ho : p''.table.Ordered) :
    ((ps ++ qs).map Prod.snd).Pairwise fun a b => ∀ x ∈ p''.table.descendants b, a < x := by
  induction htrail with
  | nil p =>
    match qs, hqs with
    | [], _ => exact .nil
    | [q], _ => exact List.pairwise_singleton _ _
  | @cons d p p' rest htrail ih =>
    have hrest := (planted_of_trail htrail fun q _ p => planted_plantRoot q.1 p).append hlast
    obtain ⟨htop, -⟩ := Served.top_plant d p
    have hsize : (d.plantRoot p).2.table.size = (d.plantRoot p).1 + 1 := by
      rw [← Table.length_bare, show (d.plantRoot p).2.table.bare = (d.plant p).2.table.bare from bare_giveRest _ _ _,
        Table.length_bare, ← htop]
      rfl
    refine .cons (fun b hb x hx => ?_) (ih hlast)
    obtain ⟨q, hq, rfl⟩ := List.mem_map.mp hb
    have := hrest.size_le_of_mem_descendants ho (hrest.size_le_of_mem.1 q hq) hx
    omega

theorem roots_pairwise_lt_plantProgram (depth serial : Nat) (items : List Item) (drafts : List Draft) :
    (plantProgram depth serial items drafts).roots.Pairwise fun a b =>
      ∀ x ∈ (plantProgram depth serial items drafts).descendants b, a < x := by
  have hordered := (spelled_plantProgram depth serial items drafts).ordered
  obtain ⟨ps, -, hsnd, htrail⟩ := mapM_trail Draft.plantRoot drafts
    ⟨Builder.start serial, (CommentPlan.ofItems items).1⟩
  obtain ⟨qs, hfst, hsnd', hplanted⟩ := planted_plantTrailing (CommentPlan.ofItems items).2
    (drafts.mapM Draft.plantRoot ⟨Builder.start serial, (CommentPlan.ofItems items).1⟩).2
  have hqs : qs.length ≤ 1 := by
    rw [← List.length_map (f := Prod.fst), hfst, List.length_map]
    exact Option.length_toList_le
  have hpairwise := pairwise_lt_of_trail htrail hplanted hqs hordered
  rw [List.map_append, ← hsnd, ← hsnd'] at hpairwise
  exact hpairwise

end Scheme

end StructuralEditor
