import Mathlib.Data.Option.Basic
import StructuralEditor.Proofs.Scheme.Forest
import StructuralEditor.Proofs.Session.Trials
import StructuralEditor.Proofs.Session.Distinct
import StructuralEditor.Proofs.Session.Identities
import StructuralEditor.Proofs.Tree.Ancestry

/-!
# The focus is visible

* `Tree.Topmost`, `Tree.topmostAbove_cases` : climbing from a node finds the hidden node at the smallest level above it,
  unless there is none;
* `Tree.Full` : all nodes of the table are in the tree; `Tree.Built.mem_of_defaultFocus` : the default focus is one of
  them;
* `Session.Focused`, `Session.Arises.focused` : in every session of the parser of programs the focus is in the tree;
* `Session.Refocused`, `Session.refocused_of_publish` : the focus and the collapsed identities after a batch;
* `Session.Arises.focusedNode?_and_refocused` : so it is after every run.
-/

namespace StructuralEditor

namespace Tree

variable {t new : Tree} {hides : Nat → Bool} {id child shown top : Nat}

/-! ## Climbing -/

/-- Of the hidden nodes above `id`, the node `top` is the one at the smallest level. -/
structure Topmost (t : Tree) (hides : Nat → Bool) (id top : Nat) : Prop where
  above : t.Above top id
  hidden : hides top = true
  least : ∀ a, t.Above a id → hides a = true → a ≠ top → (t.place top).level < (t.place a).level

section Climbing

variable (hb : t.Built) (hu : t.Unshared)

include hb hu

theorem topmostAbove_root (hroot : id ∈ t.roots) : t.topmostAbove hides id shown = shown := by
  rw [topmostAbove, parent?_of_root hb hu hroot]

theorem topmostAbove_child (hid : id ∈ t.nodes) (hchild : child ∈ t.children id) :
    t.topmostAbove hides child shown = t.topmostAbove hides id (if hides id then id else shown) := by
  have hparent := (parent?_eq_some_iff hb hu (hb.child_mem hid hchild)).mpr ⟨hid, hchild⟩
  have hup : child < id ∧ id < t.table.size :=
    ⟨hb.ordered id child hchild, Table.exists_get?_iff_lt.mp (hb.exists_node? hid)⟩
  rw [topmostAbove, hparent]
  exact if_pos hup

/-- Climbing from a node goes by every node above it, and ends with the last hidden one on the way. -/
theorem topmostAbove_cases (hides : Nat → Bool) : ∀ id ∈ t.nodes, ∀ shown,
    (t.topmostAbove hides id shown = shown ∧ ∀ a, t.Above a id → hides a = false) ∨
      t.Topmost hides id (t.topmostAbove hides id shown) := by
  refine hb.nodes_induction (fun root hroot shown => ?_) fun id hid ih child hchild shown => ?_
  · exact .inl ⟨topmostAbove_root hb hu hroot, fun a ha => absurd ha (not_above_root hb hu hroot)⟩
  · have habove : ∀ {a}, t.Above a child ↔ a = id ∨ t.Above a id := above_child_iff hb hu hid hchild
    rw [topmostAbove_child hb hu hid hchild]
    rcases ih (if hides id then id else shown) with ⟨heq, hnone⟩ | ⟨htop, hhidden, hleast⟩
    · rw [heq]
      cases hhides : hides id with
      | false =>
        refine .inl ⟨rfl, fun a ha => ?_⟩
        rcases habove.mp ha with rfl | ha
        · exact hhides
        · exact hnone a ha
      | true =>
        refine .inr ⟨habove.mpr (.inl rfl), hhides, fun a ha hhides' hne => ?_⟩
        rcases habove.mp ha with rfl | ha
        · exact absurd rfl hne
        · cases (hnone a ha).symm.trans hhides'
    · refine .inr ⟨habove.mpr (.inr htop), hhidden, fun a ha hhides' hne => ?_⟩
      rcases habove.mp ha with rfl | ha
      · exact level_lt_of_above hb hu a hid _ htop
      · exact hleast a ha hhides' hne

theorem Topmost.visible (h : t.Topmost hides id top) : ∀ a, t.Above a top → hides a = false := by
  intro a ha
  by_contra hhides
  have hlevel := level_lt_of_above hb hu top h.above.mem a ha
  have hlevel' := h.least a (ha.trans h.above hb) (Bool.eq_true_of_not_eq_false hhides) ha.ne
  omega

end Climbing

/-! ## Nodes to focus -/

def Full (t : Tree) : Prop := ∀ id < t.table.size, id ∈ t.nodes

theorem Full.withDepth (h : t.Full) (depth : Nat) : (t.withDepth depth).Full := h

theorem Full.reconcile [Hasher] (h : new.Full) (hb : new.Built) (old : Tree) : (old.reconcile new).1.Full := by
  intro id hid
  rw [hb.nodes_reconcile old]
  exact h id (((sameKinds_reconcile old new).lt_size_iff id).mp hid)

theorem Full.mem_nodes_iff (h : t.Full) (hb : t.Built) : id ∈ t.nodes ↔ (t.node? id).isSome = true := by
  rw [isSome_node?_iff]
  exact ⟨fun hid => Table.exists_get?_iff_lt.mp (hb.exists_node? hid), h id⟩

theorem later_cases (t : Tree) (best : Option Nat) (id : Nat) : t.later best id = best ∨ t.later best id = some id := by
  cases best with
  | none => exact .inr rfl
  | some b =>
    unfold later
    exact ite_eq_or_eq _ _ _

theorem mem_of_foldl_later {ids : List Nat} {best : Option Nat} (h : ids.foldl t.later best = some id) :
    best = some id ∨ id ∈ ids := by
  induction ids generalizing best with
  | nil => exact .inl h
  | cons first rest ih =>
    rcases ih h with hlater | hrest
    · rcases t.later_cases best first with hbest | hfirst
      · exact .inl (hbest.symm.trans hlater)
      · cases hfirst.symm.trans hlater
        exact .inr List.mem_cons_self
    · exact .inr (List.mem_cons_of_mem first hrest)

theorem mem_of_before? {p : Position} (h : t.before? p = some id) : id ∈ t.nodes := by
  rcases mem_of_foldl_later h with hnone | hmem
  · cases hnone
  · exact List.mem_of_mem_filter hmem

theorem Built.mem_of_defaultFocus (h : t.Built) {changes : List Change} (hid : defaultFocus changes t = some id) :
    id ∈ t.nodes := by
  simp only [defaultFocus, focusOf] at hid
  split at hid
  · rcases (Option.orElse_eq_some _ _ _).mp hid with hexactly | ⟨-, hbefore⟩
    · exact List.mem_of_find?_eq_some hexactly
    · exact mem_of_before? hbefore
  · rcases (Option.orElse_eq_some _ _ _).mp hid with hbefore | ⟨-, hroot⟩
    · obtain ⟨p, -, hbefore⟩ := Option.bind_eq_some_iff.mp hbefore
      exact mem_of_before? hbefore
    · exact h.root_mem (List.mem_of_head? hroot)

end Tree

theorem Scheme.full_parse {depth serial : Nat} {text : String} {t : Tree} (h : Scheme.parse depth serial text = .ok t) :
    t.Full := by
  obtain ⟨drafts, hspelled⟩ := spelled_parse h
  exact fun id hid => hspelled.mem_nodes_iff.mpr hid

/-- The node that a hint chooses in a tree: its own, if it is there, or else the one to focus after the changes. -/
def FocusChoice.target (choice : FocusChoice) (changes : List Change) (t : Tree) : Option Nat :=
  match choice with
  | .node id => if id ∈ t.nodes then some id else defaultFocus changes t
  | .clear => none
  | .fallback => defaultFocus changes t

theorem FocusChoice.mem_of_target {choice : FocusChoice} {changes : List Change} {t : Tree} {id : Nat} (hb : t.Built)
    (h : choice.target changes t = some id) : id ∈ t.nodes := by
  cases choice with
  | node chosen =>
    rw [target] at h
    split at h
    · next hmem =>
      cases h
      exact hmem
    · exact hb.mem_of_defaultFocus h
  | clear => cases h
  | fallback => exact hb.mem_of_defaultFocus h

namespace Session

variable {β : Type}

/-! ## A published batch -/

/-- The focus for a target: the target itself if no node above it is collapsed, or else the topmost one that is. -/
inductive FocusedFor (s : Session β) : Option Nat → Prop
  | nothing (focus : s.focus = none) : FocusedFor s none
  | itself {id : Nat} (visible : ∀ a, s.tree.Above a id → s.hides s.tree a = false)
    (focus : s.focus = some (s.tree.identity id)) : FocusedFor s (some id)
  | covered {id top : Nat} (topmost : s.tree.Topmost (s.hides s.tree) id top)
    (focus : s.focus = some (s.tree.identity top)) : FocusedFor s (some id)

/-- The focus and the collapsed identities after a batch, with what the hint says about the published tree. -/
structure Refocused (s s' : Session β) (choice : FocusChoice) (committed : Committed) : Prop where
  collapsed : s'.collapsed = s.collapsed.filter (· ∈ s'.tree.identities)
  answered : committed.focus = s'.focus
  present : ∀ identity, s'.focus = some identity → identity ∈ s'.tree.identities
  visible : ∀ id, s'.focusedNode? = some id → ∀ a, s'.tree.Above a id → s'.hides s'.tree a = false
  focusedFor : s'.FocusedFor (choice.target committed.changes s'.tree)

theorem FocusedFor.exists_visible {s : Session β} {target : Option Nat} (h : s.FocusedFor target) (hb : s.tree.Built)
    (hu : s.tree.Unshared) (htarget : ∀ id, target = some id → id ∈ s.tree.nodes) {identity : Identity}
    (hfocus : s.focus = some identity) : ∃ id ∈ s.tree.nodes, s.tree.identity id = identity ∧
      ∀ a, s.tree.Above a id → s.hides s.tree a = false := by
  cases h with
  | nothing focus => cases focus.symm.trans hfocus
  | @itself id visible focus =>
    cases focus.symm.trans hfocus
    exact ⟨id, htarget id rfl, rfl, visible⟩
  | @covered id top topmost focus =>
    cases focus.symm.trans hfocus
    exact ⟨top, topmost.above.mem, rfl, topmost.visible hb hu⟩

theorem chooseFocus_eq {t : Tree} (hb : t.Built) (hf : t.Full) (s : Session β) (changes : List Change)
    (choice : FocusChoice) :
    s.chooseFocus t changes choice = (choice.target changes t).map fun id => t.topmostAbove (s.hides t) id id := by
  cases choice with
  | node id => simp only [chooseFocus, FocusChoice.target, hf.mem_nodes_iff hb]
  | clear | fallback => rfl

section Publish

variable [Hasher] {s s' : Session β} {parsed : Tree} {buffer : β} {changes : List Change} {hint : Tree → FocusChoice}
  {committed : Committed} (h : s.publish parsed buffer changes hint = (s', committed))

include h

/-- What is dropped from the collapsed identities hides no node of the published tree. -/
theorem hides_of_publish (hb : s'.tree.Built) (hf : s'.tree.Full) : s'.hides s'.tree = s.hides s'.tree := by
  obtain rfl : _ = s' := congrArg Prod.fst h
  funext id
  unfold hides
  cases hnode : (s.publish parsed buffer changes hint).1.tree.node? id with
  | none => rfl
  | some node =>
    have hid := (hf.mem_nodes_iff hb).mpr (Option.isSome_of_eq_some hnode)
    have hfound := hb.isSome_byIdentity? hid
    rw [Tree.identity_of_node? hnode] at hfound
    exact isCollapsed_of_filter rfl hfound

theorem focusedFor_of_publish (hb : s'.tree.Built) (hu : s'.tree.Unshared) (hf : s'.tree.Full) :
    s'.FocusedFor ((hint s'.tree).target changes s'.tree) := by
  have hchoose := chooseFocus_eq hb hf s changes (hint s'.tree)
  have hfocus : s'.focus = (s.chooseFocus s'.tree changes (hint s'.tree)).bind fun id =>
      (s'.tree.node? id).map (·.identity) := by
    obtain rfl : _ = s' := congrArg Prod.fst h
    rfl
  rw [hchoose, ← hides_of_publish h hb hf] at hfocus
  cases htarget : (hint s'.tree).target changes s'.tree with
  | none =>
    rw [htarget] at hfocus
    exact .nothing hfocus
  | some id =>
    have hid := FocusChoice.mem_of_target hb htarget
    rw [htarget, Option.map_some, Option.bind_some] at hfocus
    rcases Tree.topmostAbove_cases hb hu (s'.hides s'.tree) id hid id with ⟨heq, hvisible⟩ | htop
    · rw [heq, hb.map_identity_node? hid] at hfocus
      exact .itself hvisible hfocus
    · rw [hb.map_identity_node? htop.above.mem] at hfocus
      exact .covered htop hfocus

theorem refocused_of_publish {first last : Nat} (hm : s'.tree.Marked first last) (hf : s'.tree.Full) :
    s.Refocused s' (hint s'.tree) committed := by
  have hb := hm.built
  have hfocused := focusedFor_of_publish h hb hm.unshared hf
  have hvisible : ∀ identity, s'.focus = some identity → ∃ id ∈ s'.tree.nodes, s'.tree.identity id = identity ∧
      ∀ a, s'.tree.Above a id → s'.hides s'.tree a = false :=
    fun identity => hfocused.exists_visible hb hm.unshared fun id => FocusChoice.mem_of_target hb
  have hanswer : committed.focus = s'.focus ∧ committed.changes = changes ∧
      s'.collapsed = s.collapsed.filter fun identity => (s'.tree.byIdentity? identity).isSome := by
    obtain rfl : _ = s' := congrArg Prod.fst h
    obtain rfl : _ = committed := congrArg Prod.snd h
    exact ⟨rfl, rfl, rfl⟩
  obtain ⟨hfocus, rfl, hcollapsed⟩ := hanswer
  refine ⟨?_, hfocus, fun identity hidentity => ?_, fun id hid => ?_, hfocused⟩
  · rw [hcollapsed]
    refine List.filter_congr fun identity _ => ?_
    rw [Bool.eq_iff_iff, hb.isSome_byIdentity?_iff, decide_eq_true_iff]
  · obtain ⟨id, hid, rfl, -⟩ := hvisible identity hidentity
    exact Tree.mem_identities hid
  · -- No other node has the identity in focus.
    obtain ⟨identity, hidentity, hid⟩ := Option.bind_eq_some_iff.mp hid
    obtain ⟨hmem, rfl⟩ := hb.byIdentity?_eq_some hid
    obtain ⟨id', hid', heq, habove⟩ := hvisible _ hidentity
    obtain rfl := List.inj_on_of_nodup_map hm.distinct hid' hmem heq
    exact habove

end Publish

/-! ## Runs -/

/-- All nodes of the table are in the tree, and so is what is in focus. -/
structure Focused (s : Session β) : Prop where
  full : s.tree.Full
  present : ∀ identity, s.focus = some identity → identity ∈ s.tree.identities

theorem Focused.of_eq {s s' : Session β} (h : s.Focused) (htree : s'.tree = s.tree) (hfocus : s'.focus = s.focus) :
    s'.Focused :=
  ⟨htree ▸ h.full, htree ▸ hfocus ▸ h.present⟩

theorem Focused.collapse {s : Session β} (h : s.Focused) (identity : Identity) : (s.collapse identity).Focused := by
  unfold Session.collapse
  split
  · exact h
  · exact h.of_eq rfl rfl

theorem Focused.expand {s : Session β} (h : s.Focused) (identity : Identity) : (s.expand identity).Focused :=
  h.of_eq rfl rfl

theorem Focused.setFocus {s : Session β} (h : s.Focused) (hb : s.tree.Built) (id : Option Nat) :
    (s.setFocus id).1.Focused := by
  unfold Session.setFocus
  split
  · exact ⟨h.full, fun identity hidentity => by cases hidentity⟩
  · next id =>
    split
    · next node hnode =>
      refine ⟨h.full, fun identity hidentity => ?_⟩
      cases hidentity
      have hid := (h.full.mem_nodes_iff hb).mpr (Option.isSome_of_eq_some hnode)
      rw [← Tree.identity_of_node? hnode]
      exact Tree.mem_identities hid
    · exact h

section Arising

variable [TextBuffer β] [Hasher] {depth : Nat} {s : Session β}

theorem Arises.full_reconcile (h : s.Arises (Scheme.parse depth)) {serial : Nat} {text : String} {parsed : Tree}
    (hparse : s.parser serial text = .ok parsed) : (s.tree.reconcile (parsed.withDepth s.tree.depth)).1.Full := by
  have hp := Scheme.mints_parse depth
  rw [(h.marked hp).parser] at hparse
  have hfull : parsed.Full := Scheme.full_parse hparse
  exact (hfull.withDepth s.tree.depth).reconcile ((hp _ _ _ hparse).built.withDepth s.tree.depth) s.tree

/-- Every operation keeps the focus in the tree, whatever becomes of its nodes. -/
theorem Arises.focused (h : s.Arises (Scheme.parse depth)) : s.Focused := by
  have hp := Scheme.mints_parse depth
  induction h with
  | @opened buffer s h =>
    unfold openOn at h
    split at h
    · next tree hparse =>
      cases h
      exact ⟨Scheme.full_parse hparse, fun identity hidentity => by cases hidentity⟩
    · cases h
  | @commit s h edits hint ih =>
    have hm := ((Arises.commit h edits hint).marked hp).tree
    rcases s.commit_tree_cases edits hint with ⟨buffer, heq⟩ | ⟨text, parsed, buffer, changes, hparse, heq⟩
    · rw [heq]
      exact ih.of_eq rfl rfl
    · rw [heq] at hm ⊢
      have hfull := h.full_reconcile hparse
      exact ⟨hfull, (refocused_of_publish rfl hm hfull).present⟩
  | setFocus h id ih => exact ih.setFocus (h.marked hp).tree.built id
  | collapse _ identity ih => exact ih.collapse identity
  | expand _ identity ih => exact ih.expand identity
  | toggle _ identity ih =>
    unfold Session.toggle
    split
    · exact ih.expand identity
    · exact ih.collapse identity
  | mint _ ih => exact ih.of_eq rfl rfl

/-- In every session what is in focus is a node of the tree. A batch drops just the collapsed identities that are not
in the tree any more, and puts the focus on the node that the hint or the changes point to, or on the topmost
collapsed node above it. -/
theorem Arises.focusedNode?_and_refocused (h : s.Arises (Scheme.parse depth)) :
    (∀ identity, s.focus = some identity →
      ∃ id ∈ s.tree.nodes, s.focusedNode? = some id ∧ s.tree.identity id = identity) ∧
    ∀ edits hint s' committed, s.commit edits hint = (s', .ok committed) →
      s.Refocused s' (hint s'.tree) committed := by
  have hp := Scheme.mints_parse depth
  have hb := (h.marked hp).tree.built
  refine ⟨fun identity hidentity => ?_, fun edits hint s' committed hcommit => ?_⟩
  · have hfound := hb.isSome_byIdentity?_iff.mpr (h.focused.present identity hidentity)
    obtain ⟨id, hid⟩ := Option.isSome_iff_exists.mp hfound
    obtain ⟨hmem, heq⟩ := hb.byIdentity?_eq_some hid
    exact ⟨id, hmem, Option.bind_eq_some_iff.mpr ⟨identity, hidentity, hid⟩, heq⟩
  · obtain ⟨parsed, -, -, hpublish⟩ := publish_of_commit hcommit
    have hs' : (s.commit edits hint).1 = s' := congrArg Prod.fst hcommit
    have harises : s'.Arises (Scheme.parse depth) := hs' ▸ h.commit edits hint
    exact refocused_of_publish hpublish (harises.marked hp).tree harises.focused.full

end Arising

/-- An argument is edited under two collapsed applications. It was in focus and collapsed itself, and is another node
now: the focus moves to the outer application. -/
theorem Arises.focusedNode?_and_refocused_nested : ∃ (s s' : Session Buffer) (committed : Committed),
    s.Arises (Scheme.parse defaultDepth) ∧
    s.commit [⟨⟨0, 6⟩, ⟨0, 7⟩, "10"⟩] (fun _ => .fallback) = (s', .ok committed) ∧
    s.focus = some ⟨2⟩ ∧ (∃ id ∈ s.tree.nodes, s.focusedNode? = some id ∧ s.tree.identity id = ⟨2⟩) ∧
    s.collapsed = [⟨6⟩, ⟨4⟩, ⟨2⟩] ∧ s'.collapsed = [⟨6⟩, ⟨4⟩] ∧
    defaultFocus committed.changes s'.tree = some 2 ∧ s'.tree.Topmost (s'.hides s'.tree) 2 6 ∧
    s'.focus = some (s'.tree.identity 6) := by
  have hrun : ∃ p ∈ afterEdits? "(f (g 1 2) 3)" [.setFocus (some 2), .collapse ⟨2⟩, .collapse ⟨4⟩, .collapse ⟨6⟩]
      [⟨⟨0, 6⟩, ⟨0, 7⟩, "10"⟩], ∃ outer ∈ p.2.1.tree.node? 6, p.1.focus = some ⟨2⟩ ∧
        p.1.collapsed = [⟨6⟩, ⟨4⟩, ⟨2⟩] ∧ defaultFocus p.2.2.changes p.2.1.tree = some 2 ∧
        p.2.1.tree.identities = [⟨6⟩, ⟨0⟩, ⟨4⟩, ⟨1⟩, ⟨9⟩, ⟨3⟩, ⟨5⟩] ∧ outer.identity = ⟨6⟩ ∧
        6 ∈ p.2.1.tree.nodes ∧ 2 ∈ p.2.1.tree.descendants 6 ∧
        (∀ a ∈ p.2.1.tree.nodes, a ≠ 2 → 2 ∈ p.2.1.tree.descendants a → a = 6 ∨ a = 4) ∧
        (p.2.1.tree.place 6).level < (p.2.1.tree.place 4).level := by
    decide +kernel
  obtain ⟨⟨s, s', committed⟩, hp, outer, houter, hfocus, hcollapsed, hdefault, hidentities, hidentity, hmem, hbelow,
    habove, hlevel⟩ := hrun
  obtain ⟨⟨opened, hopen, hs⟩, hcommit⟩ := of_afterEdits? hp
  have harises : s.Arises (Scheme.parse defaultDepth) := hs ▸ (Arises.opened hopen).run _
  obtain ⟨hfocused, hrefocused⟩ := harises.focusedNode?_and_refocused
  have hbatch := hrefocused _ _ _ _ hcommit
  have hcollapsed' : s'.collapsed = [⟨6⟩, ⟨4⟩] := by
    rw [hbatch.collapsed, hcollapsed, hidentities]
    decide
  have hhides : s'.hides s'.tree 6 = true := by
    rw [hides, houter, Option.any_some, hidentity, isCollapsed, hcollapsed']
    decide
  have hfor := hbatch.focusedFor
  rw [FocusChoice.target, hdefault] at hfor
  refine ⟨s, s', committed, harises, hcommit, hfocus, hfocused _ hfocus, hcollapsed, hcollapsed', hdefault, ?_⟩
  cases hfor with
  | itself visible _ => cases hhides.symm.trans (visible 6 ⟨hmem, by decide, hbelow⟩)
  | covered topmost focus =>
    rcases habove _ topmost.above.mem topmost.above.ne topmost.above.below with rfl | rfl
    · exact ⟨topmost, focus⟩
    · have hlevel' := topmost.least 6 ⟨hmem, by decide, hbelow⟩ hhides (by decide)
      exact absurd hlevel' (Nat.lt_asymm hlevel)

end Session

end StructuralEditor
