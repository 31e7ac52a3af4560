import StructuralEditor.Proofs.Scheme.Identities
import StructuralEditor.Proofs.Tree.Census
import StructuralEditor.Session.Basic

/-!
# Distinct identities in every session

* `Tree.Marked` : a built tree without sharing, with distinct identities whose serials lie between two bounds;
  `Tree.Marked.reconcile` : so it is after reconciliation with a tree of later serials;
* `Parser.Mints` : every parsed tree is marked with fresh serials; `Scheme.mints_parse` : the parser of programs
  does so;
* `Session.Arises` : the sessions that can come about, over any buffer and with any parser;
* `Session.identitiesKept_and_nodup_of_arises` : no identity is duplicated or lost, by a reconciliation or in a run.
-/

namespace StructuralEditor

namespace Tree

variable {t old new : Tree} {first middle last : Nat}

/-- The tree is built without sharing, and its identities are distinct, with serials from `first` to before
`last`. -/
structure Marked (t : Tree) (first last : Nat) : Prop where
  built : t.Built
  unshared : t.Unshared
  distinct : t.identities.Nodup
  minted : ∀ identity ∈ t.identities, first ≤ identity.serial ∧ identity.serial < last

theorem Marked.mono (h : t.Marked middle last) {first' last' : Nat} (hfirst : first' ≤ middle) (hlast : last ≤ last') :
    t.Marked first' last' :=
  ⟨h.built, h.unshared, h.distinct, fun identity hmem =>
    ⟨Nat.le_trans hfirst (h.minted identity hmem).1, Nat.lt_of_lt_of_le (h.minted identity hmem).2 hlast⟩⟩

theorem Marked.withDepth (h : t.Marked first last) (depth : Nat) : (t.withDepth depth).Marked first last :=
  ⟨h.built.withDepth depth, h.unshared, h.distinct, h.minted⟩

theorem Marked.disjoint (ho : old.Marked first middle) (hn : new.Marked middle last) :
    old.identities.Disjoint new.identities := by
  intro identity hmem hmem'
  have hlt := (ho.minted identity hmem).2
  have hle := (hn.minted identity hmem').1
  omega

/-- In a marked tree different addresses lead to different identities, all minted before the last serial. -/
theorem Marked.identified (h : t.Marked first last) : t.Identified last where
  distinct := by
    intro a a' id id' node node' hat hat' hnode hnode' heq
    have hid := h.built.mem_nodes_iff.mpr ⟨a, hat⟩
    have hid' := h.built.mem_nodes_iff.mpr ⟨a', hat'⟩
    rw [← identity_of_node? hnode, ← identity_of_node? hnode'] at heq
    obtain rfl := List.inj_on_of_nodup_map h.distinct hid hid' heq
    exact h.unshared a a' id hat hat'
  minted := by
    intro a id node hat hnode
    rw [← identity_of_node? hnode]
    exact (h.minted _ (mem_identities (h.built.mem_nodes_iff.mpr ⟨a, hat⟩))).2

/-- A tree that takes identities over from one with earlier serials has distinct identities again. -/
theorem Marked.reconcile [Hasher] (ho : old.Marked first middle) (hn : new.Marked middle last) (hle : first ≤ middle)
    (hle' : middle ≤ last) : (old.reconcile new).1.Marked first last := by
  have hkept := identitiesKept_reconcile ho.built hn.built ho.unshared hn.unshared ho.distinct hn.distinct
    (ho.disjoint hn)
  refine ⟨hn.built.reconcile old, ?_, hkept.distinct, fun identity hmem => ?_⟩
  · unfold Unshared
    rw [at?_reconcile]
    exact hn.unshared
  · obtain ⟨id, hid, rfl⟩ := List.mem_map.mp hmem
    rcases hkept.own_or_old id hid with hown | hold
    · rw [hown]
      rw [hn.built.nodes_reconcile old] at hid
      obtain ⟨hserial, hserial'⟩ := hn.minted _ (mem_identities hid)
      exact ⟨by omega, hserial'⟩
    · obtain ⟨hserial, hserial'⟩ := ho.minted _ hold
      exact ⟨hserial, by omega⟩

/-- Identities that come with the indices of the nodes are distinct. -/
theorem marked_of_fresh {serial : Nat} (hb : t.Built) (hu : t.Unshared)
    (hfresh : ∀ id node, t.node? id = some node → node.identity = ⟨serial + id⟩) :
    t.Marked serial (serial + t.table.size) := by
  have hserial : ∀ id ∈ t.nodes, id < t.table.size ∧ t.identity id = ⟨serial + id⟩ := by
    intro id hid
    obtain ⟨node, hnode⟩ := hb.exists_node? hid
    exact ⟨Table.exists_get?_iff_lt.mp ⟨node, hnode⟩, (identity_of_node? hnode).trans (hfresh id node hnode)⟩
  refine ⟨hb, hu, List.Nodup.map_on (fun id hid id' hid' heq => ?_) (hb.nodup_nodes hu), fun identity hmem => ?_⟩
  · rw [(hserial id hid).2, (hserial id' hid').2] at heq
    exact Nat.add_left_cancel (congrArg Identity.serial heq)
  · obtain ⟨id, hid, rfl⟩ := List.mem_map.mp hmem
    rw [(hserial id hid).2]
    exact ⟨Nat.le_add_right serial id, Nat.add_lt_add_left (hserial id hid).1 serial⟩

theorem marked_ofCall (serial : Nat) (argument : String) : (ofCall serial argument).Marked serial (serial + 3) := by
  have hlisted : ((ofCall serial argument).roots ++ (ofCall serial argument).table.listed).Nodup :=
    show [2, 0, 1].Nodup by decide
  refine marked_of_fresh ⟨ordered_ofCall serial argument, fun root hroot => ?_, rfl⟩ (unshared_of_nodup hlisted)
    fun id node hnode => ?_
  · obtain rfl := List.mem_singleton.mp hroot
    exact Nat.lt_succ_self 2
  · match id with
    | 0 | 1 | 2 =>
      cases hnode
      rfl
    | id + 3 => cases hnode

end Tree

/-- Every tree of the parser is built without sharing, with distinct identities from the given serial on. -/
def Parser.Mints (parser : Parser) : Prop :=
  ∀ serial text t, parser serial text = .ok t → t.Marked serial (serial + t.table.size)

/-- The parser of programs mints the identity of every node when it is made. -/
theorem Scheme.mints_parse (depth : Nat) : Parser.Mints (Scheme.parse depth) := by
  intro serial text t h
  obtain ⟨drafts, hspelled⟩ := spelled_parse h
  refine Tree.marked_of_fresh ⟨hspelled.ordered, fun root hroot => ?_, hspelled.layout⟩ (unshared_of_parse h)
    fun id node hnode => identity_of_parse h hnode
  have hmem := hspelled.listed.subset (List.mem_append_left _ hroot)
  exact List.mem_range.mp hmem

namespace Session

variable {β : Type} {parser : Parser}

/-- The session reads with the given parser, and the identities of its tree were minted before its serial. -/
structure Marked (parser : Parser) (s : Session β) : Prop where
  parser : s.parser = parser
  tree : s.tree.Marked 0 s.serial

theorem Marked.of_eq {s s' : Session β} (h : Marked parser s) (hparser : s'.parser = s.parser)
    (htree : s'.tree = s.tree) (hserial : s.serial ≤ s'.serial) : Marked parser s' :=
  ⟨hparser.trans h.parser, htree ▸ h.tree.mono (Nat.le_refl 0) hserial⟩

theorem Marked.collapse {s : Session β} (h : Marked parser s) (identity : Identity) :
    Marked parser (s.collapse identity) := by
  unfold Session.collapse
  split
  · exact h
  · exact h.of_eq rfl rfl (Nat.le_refl _)

theorem Marked.expand {s : Session β} (h : Marked parser s) (identity : Identity) :
    Marked parser (s.expand identity) :=
  h.of_eq rfl rfl (Nat.le_refl _)

theorem tryEdits_cases [TextBuffer β] (s : Session β) (edits : List Edit) :
    (∃ buffer e, s.tryEdits edits = (buffer, .error e)) ∨
      ∃ text parsed buffer changes, s.parser s.serial text = .ok parsed ∧
        s.tryEdits edits = (buffer, .ok (changes, parsed.withDepth s.tree.depth)) := by
  unfold tryEdits
  split
  · next e _ => exact .inl ⟨s.buffer, .edit e, rfl⟩
  · next scratch changes _ =>
    split
    · next e _ => exact .inl ⟨s.buffer, .parse e, rfl⟩
    · next parsed hparse =>
      split
      · next buffer e _ => exact .inl ⟨buffer, .edit e, rfl⟩
      · next buffer changes _ => exact .inr ⟨scratch.text, parsed, buffer, changes, hparse, rfl⟩

section Arising

variable [TextBuffer β] [Hasher]

/-- The session was opened over a buffer and came about by operations on it, whether they succeed or not. -/
inductive Arises (parser : Parser) : Session β → Prop
  | opened {buffer : β} {s : Session β} (h : openOn parser buffer = .ok s) : Arises parser s
  | commit {s : Session β} (h : Arises parser s) (edits : List Edit) (hint : Tree → FocusChoice) :
    Arises parser (s.commit edits hint).1
  | setFocus {s : Session β} (h : Arises parser s) (id : Option Nat) : Arises parser (s.setFocus id).1
  | collapse {s : Session β} (h : Arises parser s) (identity : Identity) : Arises parser (s.collapse identity)
  | expand {s : Session β} (h : Arises parser s) (identity : Identity) : Arises parser (s.expand identity)
  | toggle {s : Session β} (h : Arises parser s) (identity : Identity) : Arises parser (s.toggle identity).1
  | mint {s : Session β} (h : Arises parser s) : Arises parser s.mint.1

/-- A batch leaves the tree alone, or publishes what the parser gives for some text. -/
theorem commit_tree_cases (s : Session β) (edits : List Edit) (hint : Tree → FocusChoice) :
    (∃ buffer, (s.commit edits hint).1 = { s with buffer := buffer }) ∨
      ∃ text parsed buffer changes, s.parser s.serial text = .ok parsed ∧
        (s.commit edits hint).1 = (s.publish (parsed.withDepth s.tree.depth) buffer changes hint).1 := by
  unfold commit
  rcases s.tryEdits_cases edits with ⟨buffer, e, htry⟩ | ⟨text, parsed, buffer, changes, hparse, htry⟩
  · rw [htry]
    exact .inl ⟨buffer, rfl⟩
  · rw [htry]
    exact .inr ⟨text, parsed, buffer, changes, hparse, rfl⟩

theorem Marked.commit (hp : parser.Mints) {s : Session β} (h : Marked parser s) (edits : List Edit)
    (hint : Tree → FocusChoice) : Marked parser (s.commit edits hint).1 := by
  rcases s.commit_tree_cases edits hint with ⟨buffer, heq⟩ | ⟨text, parsed, buffer, changes, hparse, heq⟩
  · rw [heq]
    exact h.of_eq rfl rfl (Nat.le_refl _)
  · rw [heq]
    rw [h.parser] at hparse
    have hparsed := (hp _ _ _ hparse).withDepth s.tree.depth
    exact ⟨h.parser, h.tree.reconcile hparsed (Nat.zero_le _) (Nat.le_add_right _ _)⟩

/-- Every operation keeps the identities of the published tree distinct, so they are in every session. -/
theorem Arises.marked (hp : parser.Mints) {s : Session β} (h : s.Arises parser) : Marked parser s := by
  induction h with
  | @opened buffer s h =>
    unfold openOn at h
    split at h
    · next tree hparse =>
      cases h
      have hmarked := hp _ _ _ hparse
      rw [Nat.zero_add] at hmarked
      exact ⟨rfl, hmarked⟩
    · cases h
  | commit _ edits hint ih => exact ih.commit hp edits hint
  | setFocus _ id ih =>
    unfold Session.setFocus
    split
    · exact ih.of_eq rfl rfl (Nat.le_refl _)
    · split
      · exact ih.of_eq rfl rfl (Nat.le_refl _)
      · exact ih
  | collapse _ identity ih => exact ih.collapse identity
  | expand _ identity ih => exact ih.expand identity
  | toggle _ identity ih =>
    unfold Session.toggle
    split
    · exact ih.expand identity
    · exact ih.collapse identity
  | mint _ ih => exact ih.of_eq rfl rfl (Nat.le_succ _)

/-- Reconciliation neither duplicates nor loses an identity. So the identities of the published tree are distinct
in every session whose parser mints fresh ones. -/
theorem identitiesKept_and_nodup_of_arises :
    (∀ {old new : Tree}, old.Built → new.Built → old.Unshared → new.Unshared → old.identities.Nodup →
      new.identities.Nodup → old.identities.Disjoint new.identities → Tree.IdentitiesKept old new) ∧
    (∀ {β : Type} [TextBuffer β] {parser : Parser}, parser.Mints → ∀ {s : Session β}, s.Arises parser →
      s.tree.identities.Nodup) :=
  ⟨Tree.identitiesKept_reconcile, fun hp _ h => (h.marked hp).tree.distinct⟩

end Arising

/-- An application whose argument has changed, and a session in which that is done. -/
theorem identitiesKept_and_nodup_of_arises_call :
    Tree.IdentitiesKept (Tree.ofCall 0 "a") (Tree.ofCall 3 "b") ∧
      ∃ opened : Session Buffer, openOn (Scheme.parse defaultDepth) ⟨"(f a)"⟩ = .ok opened ∧
        (opened.commit [⟨⟨0, 3⟩, ⟨0, 4⟩, "b"⟩] fun _ => .fallback).1.tree.identities.Nodup := by
  obtain ⟨htrees, hsessions⟩ := identitiesKept_and_nodup_of_arises
  refine ⟨?_, ?_⟩
  · have hold := Tree.marked_ofCall 0 "a"
    have hnew := Tree.marked_ofCall 3 "b"
    exact htrees hold.built hnew.built hold.unshared hnew.unshared hold.distinct hnew.distinct (hold.disjoint hnew)
  · have hok : (openOn (Scheme.parse defaultDepth) (⟨"(f a)"⟩ : Buffer)).isOk = true := by decide +kernel
    cases hopen : openOn (Scheme.parse defaultDepth) (⟨"(f a)"⟩ : Buffer) with
    | error e =>
      rw [hopen] at hok
      cases hok
    | ok opened =>
      exact ⟨opened, rfl, hsessions (Scheme.mints_parse defaultDepth) (.commit (.opened hopen) _ _)⟩

end Session

end StructuralEditor
