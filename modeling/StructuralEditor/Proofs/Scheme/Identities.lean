import StructuralEditor.Proofs.Scheme.Planting
import StructuralEditor.Proofs.Tree.Layout

/-!
# The identities of a planted program

* `Planting.Alike`, `plant_alike`, `parse_alike` : the serial from which identities are minted decides nothing
  but the identities;
* `Planting.Minted`, `minted_plant`, `identity_of_parse` : each node has the identity that comes with its index.
-/

namespace StructuralEditor

namespace Table

theorem anonymous_push (t : Table) (node : Node) : (t.push node).anonymous = t.anonymous ++ [node.anonymous] := by
  simp [anonymous, push]

theorem anonymous_modify {t u : Table} (h : t.anonymous = u.anonymous) (id : Nat) {f : Node → Node}
    (hf : ∀ node, (f node).anonymous = f node.anonymous) :
    (t.modify id f).anonymous = (u.modify id f).anonymous := by
  refine anonymous_eq_iff.mpr fun n => ?_
  have hn := anonymous_eq_iff.mp h n
  rw [get?_modify, get?_modify]
  split
  · have hmap : ∀ x : Option Node, (x.map f).map Node.anonymous = (x.map Node.anonymous).map f := by
      intro x
      cases x with
      | none => rfl
      | some node => exact congrArg some (hf node)
    rw [hmap, hmap, hn]
  · exact hn

theorem comment_eq_of_anonymous {t u : Table} (h : t.anonymous = u.anonymous) (id : Nat) :
    (t.get? id).bind (·.comment) = (u.get? id).bind (·.comment) := by
  have hcomment : ∀ x : Option Node, x.bind (·.comment) = (x.map Node.anonymous).bind (·.comment) := by
    intro x
    cases x <;> rfl
  rw [hcomment, anonymous_eq_iff.mp h id, ← hcomment]

theorem Spells.of_anonymous {t u : Table} {id : Nat} {d : Scheme.Draft} (h : t.Spells id d)
    (heq : t.anonymous = u.anonymous) : u.Spells id d := by
  refine h.mono fun id node hnode => ?_
  have hid := anonymous_eq_iff.mp heq id
  rw [hnode, Option.map_some] at hid
  obtain ⟨node', hnode', hsame⟩ := Option.map_eq_some_iff.mp hid.symm
  have hspan := congrArg Node.span hsame
  have hkind := congrArg Node.kind hsame
  have hoptions := congrArg Node.options hsame
  exact ⟨node', hnode', hspan, hkind, hoptions⟩

end Table

namespace Scheme

/-! ## Any serial -/

/-- The same tables but for identities, with the same comments waiting. -/
structure Planting.Alike (p q : Planting) : Prop where
  nodes : p.table.anonymous = q.table.anonymous
  waiting : p.waiting = q.waiting

namespace Planting

variable {p q : Planting}

theorem waiting_add (span : Span) (label : String) (kind : Kind Nat) (p : Planting) :
    (add span label kind p).2.waiting =
      if (p.waiting.find? span.start).isSome then p.waiting.erase span.start else p.waiting := by
  unfold add
  simp only
  split
  · next h =>
    rw [h]
    rfl
  · next h =>
    rw [h]
    rfl

theorem Alike.add (h : p.Alike q) (span : Span) (label : String) (kind : Kind Nat) :
    (add span label kind p).1 = (add span label kind q).1 ∧
      (add span label kind p).2.Alike (add span label kind q).2 := by
  refine ⟨?_, ?_, ?_⟩
  · rw [add_fst, add_fst, Table.size_eq_of_anonymous h.nodes]
  · rw [table_add, table_add, Table.anonymous_push, Table.anonymous_push, h.nodes, h.waiting]
    rfl
  · rw [waiting_add, waiting_add, h.waiting]

theorem Alike.give (h : p.Alike q) (id : Nat) (entry : Position × Comment) :
    (give id p entry).Alike (give id q entry) where
  nodes := by
    unfold Planting.give
    simp only [Table.comment_eq_of_anonymous h.nodes id]
    exact Table.anonymous_modify h.nodes id fun _ => rfl
  waiting := by
    show p.waiting.erase entry.1 = q.waiting.erase entry.1
    rw [h.waiting]

theorem Alike.giveRest (h : p.Alike q) (id : Nat) (span : Span) :
    (giveRest id span p).Alike (giveRest id span q) := by
  unfold Planting.giveRest
  rw [h.waiting]
  generalize q.waiting.inside span = entries
  induction entries generalizing p q with
  | nil => exact h
  | cons entry rest ih => exact ih (h.give id entry)

end Planting

theorem plant_alike (d : Draft) {p q : Planting} (h : p.Alike q) :
    (d.plant p).1 = (d.plant q).1 ∧ (d.plant p).2.Alike (d.plant q).2 := by
  induction d using Draft.children_induction generalizing p q with
  | h span label kind ih =>
    obtain ⟨hvalue, hstate⟩ := Kind.traverse_congr (fun child hm p q => ih child hm) h
    rw [Draft.plant_run, Draft.plant_run, hvalue]
    exact hstate.add span label _

theorem plantRoot_alike (d : Draft) {p q : Planting} (h : p.Alike q) :
    (d.plantRoot p).1 = (d.plantRoot q).1 ∧ (d.plantRoot p).2.Alike (d.plantRoot q).2 := by
  obtain ⟨hvalue, hstate⟩ := plant_alike d h
  refine ⟨hvalue, ?_⟩
  show (Planting.giveRest (d.plant p).1 d.span (d.plant p).2).Alike
    (Planting.giveRest (d.plant q).1 d.span (d.plant q).2)
  rw [hvalue]
  exact hstate.giveRest _ _

theorem plantRoots_alike (drafts : List Draft) {p q : Planting} (h : p.Alike q) :
    (drafts.mapM Draft.plantRoot p).1 = (drafts.mapM Draft.plantRoot q).1 ∧
      (drafts.mapM Draft.plantRoot p).2.Alike (drafts.mapM Draft.plantRoot q).2 := by
  obtain ⟨ps, hfst, hsnd, htrail⟩ := mapM_trail Draft.plantRoot drafts p
  obtain ⟨qs, hfst', hsnd', htrail'⟩ := mapM_trail Draft.plantRoot drafts q
  obtain ⟨rfl, hstate⟩ :=
    htrail.congr htrail' (hfst.trans hfst'.symm) (fun r _ p q h => plantRoot_alike r.1 h) h
  exact ⟨hsnd.trans hsnd'.symm, hstate⟩

theorem plantTrailing_alike (trailing : Option Comment) {p q : Planting} (h : p.Alike q) :
    (plantTrailing trailing p).1 = (plantTrailing trailing q).1 ∧
      (plantTrailing trailing p).2.Alike (plantTrailing trailing q).2 := by
  cases trailing with
  | none => exact ⟨rfl, h⟩
  | some comment =>
    refine ⟨congrArg (fun n => [n]) (Table.size_eq_of_anonymous h.nodes), ?_, h.waiting⟩
    show (Table.push _ _).anonymous = (Table.push _ _).anonymous
    rw [Table.anonymous_push, Table.anonymous_push, h.nodes]
    rfl

theorem plantProgram_alike (depth serial serial' : Nat) (items : List Item) (drafts : List Draft) :
    (plantProgram depth serial items drafts).Alike (plantProgram depth serial' items drafts) := by
  have hstart : Planting.Alike ⟨Builder.start serial, (CommentPlan.ofItems items).1⟩
      ⟨Builder.start serial', (CommentPlan.ofItems items).1⟩ := ⟨rfl, rfl⟩
  obtain ⟨hroots, hstate⟩ := plantRoots_alike drafts hstart
  obtain ⟨hlast, hend⟩ := plantTrailing_alike (CommentPlan.ofItems items).2 hstate
  exact Tree.alike_ofTable hend.nodes (congrArg₂ (· ++ ·) hroots hlast) depth

theorem parse_alike {depth serial : Nat} {text : String} {t : Tree} (h : parse depth serial text = .ok t)
    (serial' : Nat) : ∃ u, parse depth serial' text = .ok u ∧ t.Alike u := by
  obtain ⟨tokens, items, drafts, htokens, hitems, hdrafts, rfl⟩ := parse_eq_ok_iff.mp h
  exact ⟨_, parse_eq_ok_iff.mpr ⟨tokens, items, drafts, htokens, hitems, hdrafts, rfl⟩,
    plantProgram_alike depth serial serial' items drafts⟩

/-! ## One serial -/

/-- Identities are minted from `serial` on, and each node has the one that comes with its index. -/
structure Planting.Minted (serial : Nat) (p : Planting) : Prop where
  firstSerial : p.builder.firstSerial = serial
  identity : ∀ id node, p.table.get? id = some node → node.identity = ⟨serial + id⟩

namespace Planting

variable {p p' : Planting} {serial : Nat}

theorem Minted.push (h : p.Minted serial) {node : Node} (hserial : p'.builder.firstSerial = p.builder.firstSerial)
    (htable : p'.table = p.table.push node) (hnode : node.identity = p.builder.nextIdentity) :
    p'.Minted serial where
  firstSerial := hserial.trans h.firstSerial
  identity := by
    intro id other hother
    rw [htable, Table.get?_push] at hother
    split at hother
    · next hid =>
      cases hother
      rw [hnode, hid, ← h.firstSerial]
      rfl
    · exact h.identity id other hother

theorem firstSerial_add (span : Span) (label : String) (kind : Kind Nat) (p : Planting) :
    (add span label kind p).2.builder.firstSerial = p.builder.firstSerial := by
  unfold add
  simp only
  split <;> rfl

theorem Minted.add (h : p.Minted serial) (span : Span) (label : String) (kind : Kind Nat) :
    (Planting.add span label kind p).2.Minted serial :=
  h.push (firstSerial_add ..) (table_add ..) rfl

theorem Minted.give (h : p.Minted serial) (id : Nat) (entry : Position × Comment) :
    (Planting.give id p entry).Minted serial where
  firstSerial := h.firstSerial
  identity := by
    intro n node hnode
    unfold Planting.give Builder.attach at hnode
    rw [show ∀ q : Planting, q.table = q.builder.table from fun _ => rfl, Table.get?_modify] at hnode
    split at hnode
    · obtain ⟨other, hother, rfl⟩ := Option.map_eq_some_iff.mp hnode
      exact h.identity n other hother
    · exact h.identity n node hnode

theorem Minted.giveRest (h : p.Minted serial) (id : Nat) (span : Span) :
    (Planting.giveRest id span p).Minted serial := by
  unfold Planting.giveRest
  generalize p.waiting.inside span = entries
  induction entries generalizing p with
  | nil => exact h
  | cons entry rest ih => exact ih (h.give id entry)

end Planting

theorem minted_plant (d : Draft) {p : Planting} {serial : Nat} (h : p.Minted serial) :
    (d.plant p).2.Minted serial := by
  induction d using Draft.children_induction generalizing p with
  | h span label kind ih =>
    obtain ⟨m, rfl, -, htrail⟩ := Kind.traverse_trail Draft.plant kind p
    have hchildren : (Kind.traverse Draft.plant (m.map Prod.fst) p).2.Minted serial := by
      refine htrail.keeps (fun q hq p hp => ih q.1 ?_ hp) h
      rw [Kind.children_map]
      exact List.mem_map_of_mem hq
    rw [Draft.plant_run]
    exact hchildren.add span label _

theorem minted_plantTrailing (trailing : Option Comment) {p : Planting} {serial : Nat} (h : p.Minted serial) :
    (plantTrailing trailing p).2.Minted serial := by
  cases trailing with
  | none => exact h
  | some comment => exact h.push rfl rfl rfl

theorem minted_plantProgram (depth serial : Nat) (items : List Item) (drafts : List Draft) {id : Nat} {node : Node}
    (h : (plantProgram depth serial items drafts).node? id = some node) : node.identity = ⟨serial + id⟩ := by
  have hstart : Planting.Minted serial ⟨Builder.start serial, (CommentPlan.ofItems items).1⟩ :=
    ⟨rfl, fun id node hnode => by cases hnode⟩
  obtain ⟨ps, -, -, htrail⟩ := mapM_trail Draft.plantRoot drafts ⟨Builder.start serial, (CommentPlan.ofItems items).1⟩
  have hroots := htrail.keeps (P := Planting.Minted serial)
    (fun q _ p hp => (minted_plant q.1 hp).giveRest (q.1.plant p).1 q.1.span) hstart
  exact (minted_plantTrailing (CommentPlan.ofItems items).2 hroots).identity id node h

/-- Each node of a parsed tree has the identity that comes with its index. -/
theorem identity_of_parse {depth serial : Nat} {text : String} {t : Tree} (h : parse depth serial text = .ok t)
    {id : Nat} {node : Node} (hnode : t.node? id = some node) : node.identity = ⟨serial + id⟩ := by
  obtain ⟨tokens, items, drafts, -, -, -, rfl⟩ := parse_eq_ok_iff.mp h
  exact minted_plantProgram depth serial items drafts hnode

end Scheme

end StructuralEditor
