import StructuralEditor.Proofs.Scheme.Labels
import StructuralEditor.Proofs.Session.Distinct
import StructuralEditor.Proofs.Tree.Relabelling

/-!
# Runs of a session

* `Session.Operation`, `Session.run` : what can be done with a session, and a run of it;
* `Session.perform_cases` : an operation leaves text and tree alone, or publishes the tree of the new text;
* `Session.Coherent`, `Session.coherent_run` : the published tree is that of the text, but for identities and options;
* `Session.Faithful`, `Session.faithful_run` : its options are those of that tree too, unless digests collide on the
  way;
* `Session.run_alike_parse` : so it is after every run from every text that can be parsed.
-/

namespace StructuralEditor

namespace Session

inductive Operation where
  | commit (edits : List Edit) (hint : Tree → FocusChoice)
  | setFocus (id : Option Nat)
  | collapse (identity : Identity)
  | expand (identity : Identity)
  | toggle (identity : Identity)
  | mint

variable {depth : Nat} {s s' : Session Buffer}

/-! ## Text and tree -/

/-- Neither the text nor the tree has changed. -/
structure Quiet (s s' : Session Buffer) : Prop where
  parser : s'.parser = s.parser
  buffer : s'.buffer = s.buffer
  tree : s'.tree = s.tree
  serial : s.serial ≤ s'.serial

theorem quiet_rfl (s : Session Buffer) : Quiet s s := ⟨rfl, rfl, rfl, Nat.le_refl _⟩

theorem quiet_collapse (s : Session Buffer) (identity : Identity) : Quiet s (s.collapse identity) := by
  unfold collapse
  split
  · exact quiet_rfl s
  · exact ⟨rfl, rfl, rfl, Nat.le_refl _⟩

theorem quiet_expand (s : Session Buffer) (identity : Identity) : Quiet s (s.expand identity) :=
  ⟨rfl, rfl, rfl, Nat.le_refl _⟩

/-- The live buffer holds the text of the copy, so it takes what the copy took. -/
theorem tryEdits_cases_of_buffer (s : Session Buffer) (edits : List Edit) :
    (∃ e, s.tryEdits edits = (s.buffer, .error e)) ∨
      ∃ parsed edited changes, s.parser s.serial edited.text = .ok parsed ∧
        s.tryEdits edits = (edited, .ok (changes, parsed.withDepth s.tree.depth)) := by
  have hcopy : (⟨s.text⟩ : Buffer) = s.buffer := rfl
  unfold tryEdits
  rw [hcopy]
  cases happly : Buffer.apply s.buffer edits with
  | error e => exact .inl ⟨.edit e, rfl⟩
  | ok edited =>
    have hlive : TextBuffer.apply s.buffer edits = (edited.1, .ok edited.2) := by
      simp only [TextBuffer.apply, happly]
    cases hparse : s.parser s.serial edited.1.text with
    | error e =>
      refine .inl ⟨.parse e, ?_⟩
      simp only [hparse]
    | ok parsed =>
      refine .inr ⟨parsed, edited.1, edited.2, hparse, ?_⟩
      simp only [hparse, hlive]

/-! ## Coherence -/

/-- The session parses to the given depth, and its tree is that of its text but for identities and options. -/
structure Coherent (depth : Nat) (s : Session Buffer) : Prop where
  parser : s.parser = Scheme.parse depth
  relabelled : ∃ serial t, Scheme.parse depth serial s.text = .ok t ∧ s.tree.Relabelled t

theorem Coherent.depth_eq (h : Coherent depth s) : s.tree.depth = depth := by
  obtain ⟨serial, t, hparse, hrelabelled⟩ := h.relabelled
  rw [hrelabelled.depth, Scheme.depth_of_parse hparse]

theorem Coherent.of_quiet (h : Coherent depth s) (hquiet : Quiet s s') : Coherent depth s' where
  parser := hquiet.parser.trans h.parser
  relabelled := by
    rw [hquiet.tree, text, hquiet.buffer]
    exact h.relabelled

theorem coherent_openOn {buffer : Buffer} (h : openOn (Scheme.parse depth) buffer = .ok s) : Coherent depth s := by
  unfold openOn at h
  split at h
  · next tree hparse =>
    cases h
    exact ⟨rfl, 0, tree, hparse, .refl tree⟩
  · cases h

/-- The options of the published tree are those of the tree of the text too. -/
structure Faithful (depth : Nat) (s : Session Buffer) : Prop extends Coherent depth s where
  alike : ∃ serial t, Scheme.parse depth serial s.text = .ok t ∧ s.tree.Alike t

theorem Faithful.labelled (h : Faithful depth s) : Scheme.Labelled s.tree := by
  obtain ⟨serial, t, hparse, halike⟩ := h.alike
  exact (Scheme.labelled_parse hparse).of_alike halike.symm

theorem Faithful.of_quiet (h : Faithful depth s) (hquiet : Quiet s s') : Faithful depth s' where
  toCoherent := h.toCoherent.of_quiet hquiet
  alike := by
    rw [hquiet.tree, text, hquiet.buffer]
    exact h.alike

theorem faithful_openOn {buffer : Buffer} (h : openOn (Scheme.parse depth) buffer = .ok s) : Faithful depth s := by
  refine ⟨coherent_openOn h, ?_⟩
  unfold openOn at h
  split at h
  · next tree hparse =>
    cases h
    exact ⟨0, tree, hparse, .refl tree⟩
  · cases h

/-! ## Runs -/

section Running

variable [Hasher] {parsed : Tree}

/-- The session after an operation, whether it succeeds or not. -/
def perform (s : Session Buffer) : Operation → Session Buffer
  | .commit edits hint => (s.commit edits hint).1
  | .setFocus id => (s.setFocus id).1
  | .collapse identity => s.collapse identity
  | .expand identity => s.expand identity
  | .toggle identity => (s.toggle identity).1
  | .mint => s.mint.1

def run (s : Session Buffer) (operations : List Operation) : Session Buffer :=
  operations.foldl perform s

/-- The session was opened over a text and came about by a run. -/
def Reachable (depth : Nat) (s : Session Buffer) : Prop :=
  ∃ (source : String) (opened : Session Buffer) (operations : List Operation),
    openOn (Scheme.parse depth) ⟨source⟩ = .ok opened ∧ opened.run operations = s

/-! ## One operation -/

/-- The tree of the new text has been published, after it took over what it can from the one before. -/
structure Published (s : Session Buffer) (parsed : Tree) (s' : Session Buffer) : Prop where
  parser : s'.parser = s.parser
  parses : s.parser s.serial s'.text = .ok parsed
  tree : s'.tree = (s.tree.reconcile (parsed.withDepth s.tree.depth)).1
  serial : s'.serial = s.serial + parsed.table.size
  collapsed : s'.collapsed = s.collapsed.filter fun identity => (s'.tree.byIdentity? identity).isSome

theorem commit_cases (s : Session Buffer) (edits : List Edit) (hint : Tree → FocusChoice) :
    (∃ e, s.commit edits hint = (s, .error e)) ∨
      ∃ parsed s' committed, s.commit edits hint = (s', .ok committed) ∧ Published s parsed s' := by
  unfold commit
  rcases s.tryEdits_cases_of_buffer edits with ⟨e, htry⟩ | ⟨parsed, edited, changes, hparse, htry⟩
  · rw [htry]
    exact .inl ⟨e, rfl⟩
  · rw [htry]
    exact .inr ⟨parsed, _, _, rfl, rfl, hparse, rfl, rfl, rfl⟩

/-- An operation leaves text and tree alone, or is a commit that publishes the tree of the new text. -/
theorem perform_cases (s : Session Buffer) (operation : Operation) :
    Quiet s (s.perform operation) ∨ ∃ parsed edits hint, operation = .commit edits hint ∧
      (s.commit edits hint).2.isOk = true ∧ Published s parsed (s.perform operation) := by
  cases operation with
  | commit edits hint =>
    rcases s.commit_cases edits hint with ⟨e, h⟩ | ⟨parsed, s', committed, h, hpublished⟩
    · left
      show Quiet s (s.commit edits hint).1
      rw [h]
      exact quiet_rfl s
    · refine .inr ⟨parsed, edits, hint, rfl, ?_, ?_⟩
      · rw [h]
        rfl
      · show Published s parsed (s.commit edits hint).1
        rw [h]
        exact hpublished
  | setFocus id =>
    left
    show Quiet s (s.setFocus id).1
    unfold setFocus
    split
    · exact ⟨rfl, rfl, rfl, Nat.le_refl _⟩
    · split
      · exact ⟨rfl, rfl, rfl, Nat.le_refl _⟩
      · exact quiet_rfl s
  | collapse identity => exact .inl (quiet_collapse s identity)
  | expand identity => exact .inl (quiet_expand s identity)
  | toggle identity =>
    left
    show Quiet s (s.toggle identity).1
    unfold toggle
    split
    · exact quiet_expand s identity
    · exact quiet_collapse s identity
  | mint => exact .inl ⟨rfl, rfl, rfl, Nat.le_succ _⟩

/-- What holds at first and is kept by every operation holds after every run. -/
theorem run_keeps {P : Session Buffer → Prop} {s : Session Buffer} (hs : P s)
    (hquiet : ∀ s s', P s → Quiet s s' → P s')
    (hpublished : ∀ s parsed s', P s → Published s parsed s' → P s') (operations : List Operation) :
    P (s.run operations) := by
  induction operations generalizing s with
  | nil => exact hs
  | cons operation rest ih =>
    refine ih ?_
    rcases s.perform_cases operation with h | ⟨parsed, -, -, -, -, h⟩
    · exact hquiet s _ hs h
    · exact hpublished s parsed _ hs h

theorem Arises.run {parser : Parser} {s : Session Buffer} (h : s.Arises parser) (operations : List Operation) :
    (s.run operations).Arises parser := by
  induction operations generalizing s with
  | nil => exact h
  | cons operation later ih =>
    refine ih ?_
    cases operation with
    | commit edits hint => exact h.commit edits hint
    | setFocus id => exact h.setFocus id
    | collapse identity => exact h.collapse identity
    | expand identity => exact h.expand identity
    | toggle identity => exact h.toggle identity
    | mint => exact h.mint

theorem Reachable.arises {depth : Nat} {s : Session Buffer} (h : s.Reachable depth) : s.Arises (Scheme.parse depth) := by
  obtain ⟨source, opened, operations, hopen, rfl⟩ := h
  exact (Arises.opened hopen).run operations

theorem Reachable.marked {depth : Nat} {s : Session Buffer} (h : s.Reachable depth) : s.tree.Marked 0 s.serial :=
  (h.arises.marked (Scheme.mints_parse depth)).tree

/-- The published tree is the reconciled one: the depth of what is parsed is right from the start. -/
theorem Coherent.tree_eq (h : Coherent depth s) (hpublished : Published s parsed s') :
    Scheme.parse depth s.serial s'.text = .ok parsed ∧ s'.tree = (s.tree.reconcile parsed).1 := by
  have hparsed := hpublished.parses
  rw [h.parser] at hparsed
  refine ⟨hparsed, ?_⟩
  rw [hpublished.tree, h.depth_eq, ← Scheme.depth_of_parse hparsed]
  rfl

theorem Coherent.of_published (h : Coherent depth s) (hpublished : Published s parsed s') : Coherent depth s' where
  parser := hpublished.parser.trans h.parser
  relabelled := by
    obtain ⟨hparsed, htree⟩ := h.tree_eq hpublished
    refine ⟨s.serial, parsed, hparsed, ?_⟩
    rw [htree]
    exact (Scheme.mints_parse depth _ _ _ hparsed).built.relabelled_reconcile s.tree

theorem coherent_run (h : Coherent depth s) (operations : List Operation) : Coherent depth (s.run operations) :=
  run_keeps h (fun _ _ hs => hs.of_quiet) (fun _ _ _ hs => hs.of_published) operations

theorem Reachable.coherent (h : s.Reachable depth) : Coherent depth s := by
  obtain ⟨source, opened, operations, hopen, rfl⟩ := h
  exact coherent_run (coherent_openOn hopen) operations

theorem Faithful.of_published (h : Faithful depth s) (hpublished : Published s parsed s')
    (hfree : s.tree.CollisionFree s'.tree) : Faithful depth s' where
  toCoherent := h.toCoherent.of_published hpublished
  alike := by
    obtain ⟨hparsed, htree⟩ := h.tree_eq hpublished
    refine ⟨s.serial, parsed, hparsed, ?_⟩
    rw [htree, Tree.collisionFree_reconcile] at hfree
    rw [htree]
    exact Scheme.reconcile_alike h.labelled (Scheme.labelled_parse hparsed) hfree (Scheme.layout_of_parse hparsed)

/-- If the operation publishes a tree, no digest of it collides with one of the tree before. -/
def Distinguishes (s : Session Buffer) : Operation → Prop
  | .commit edits hint => (s.commit edits hint).2.isOk = true → s.tree.CollisionFree (s.commit edits hint).1.tree
  | _ => True

/-- No trees that follow one another along a run have digests that collide. -/
def RunDistinguishes (s : Session Buffer) : List Operation → Prop
  | [] => True
  | operation :: later => s.Distinguishes operation ∧ (s.perform operation).RunDistinguishes later

instance (s : Session Buffer) : (operation : Operation) → Decidable (s.Distinguishes operation)
  | .commit edits hint =>
    inferInstanceAs (Decidable ((s.commit edits hint).2.isOk = true → s.tree.CollisionFree (s.commit edits hint).1.tree))
  | .setFocus _ | .collapse _ | .expand _ | .toggle _ | .mint => .isTrue trivial

instance decidableRunDistinguishes (s : Session Buffer) : (operations : List Operation) →
    Decidable (s.RunDistinguishes operations)
  | [] => .isTrue trivial
  | operation :: later =>
    haveI := decidableRunDistinguishes (s.perform operation) later
    inferInstanceAs (Decidable (s.Distinguishes operation ∧ (s.perform operation).RunDistinguishes later))

theorem Faithful.perform {depth : Nat} {s : Session Buffer} (h : Faithful depth s) {operation : Operation}
    (hfree : s.Distinguishes operation) : Faithful depth (s.perform operation) := by
  rcases s.perform_cases operation with hquiet | ⟨parsed, edits, hint, rfl, hok, hpublished⟩
  · exact h.of_quiet hquiet
  · exact h.of_published hpublished (hfree hok)

theorem faithful_run {depth : Nat} {s : Session Buffer} (h : Faithful depth s) {operations : List Operation}
    (hfree : s.RunDistinguishes operations) : Faithful depth (s.run operations) := by
  induction operations generalizing s with
  | nil => exact h
  | cons operation later ih => exact ih (h.perform hfree.1) hfree.2

/-- After every run from a text that can be parsed, the published tree is the tree of the text in everything but
identities and options, with the depth of the tree that the session was opened with. It has the options of that tree
too, if no trees that follow one another along the run have digests that collide. -/
theorem run_alike_parse {depth serial : Nat} {source : String} {opened : Tree}
    (h : Scheme.parse depth serial source = .ok opened) :
    ∃ s : Session Buffer, openOn (Scheme.parse depth) ⟨source⟩ = .ok s ∧ s.tree.Alike opened ∧
      ∀ operations serial', ∃ t, Scheme.parse depth serial' (s.run operations).text = .ok t ∧
        (s.run operations).tree.Relabelled t ∧ (s.run operations).tree.depth = opened.depth ∧
        (s.RunDistinguishes operations → (s.run operations).tree.Alike t) := by
  obtain ⟨tree, htree, halike⟩ := Scheme.parse_alike h 0
  have hopen : openOn (Scheme.parse depth) (⟨source⟩ : Buffer) =
      .ok ⟨Scheme.parse depth, ⟨source⟩, tree, none, [], tree.table.size⟩ := by
    unfold openOn
    rw [show TextBuffer.text (⟨source⟩ : Buffer) = source from rfl, htree]
  refine ⟨_, hopen, halike.symm, fun operations serial' => ?_⟩
  have hrun := coherent_run (coherent_openOn hopen) operations
  obtain ⟨serial₁, t, ht, hrelabelled⟩ := hrun.relabelled
  obtain ⟨u, hu, htu⟩ := Scheme.parse_alike ht serial'
  refine ⟨u, hu, hrelabelled.trans htu.relabelled, hrun.depth_eq.trans (Scheme.depth_of_parse h).symm, fun hfree => ?_⟩
  obtain ⟨serial₂, v, hv, halike'⟩ := (faithful_run (faithful_openOn hopen) hfree).alike
  obtain ⟨w, hw, hvw⟩ := Scheme.parse_alike hv serial'
  cases hu.symm.trans hw
  exact halike'.trans hvw

end Running

/-- The body of a form is replaced, and the form has the label of the new text. -/
theorem run_alike_parse_guarded : ∃ (opened t : Tree) (s : Session Buffer),
    Scheme.parse 1 0 "(when a b)" = .ok opened ∧ openOn (Scheme.parse 1) ⟨"(when a b)"⟩ = .ok s ∧
    s.RunDistinguishes [.collapse ⟨1⟩, .commit [⟨⟨0, 8⟩, ⟨0, 9⟩, "(f c)"⟩] fun _ => .fallback] ∧
    Scheme.parse 1 0 "(when a (f c))" = .ok t ∧
    (s.run [.collapse ⟨1⟩, .commit [⟨⟨0, 8⟩, ⟨0, 9⟩, "(f c)"⟩] fun _ => .fallback]).tree.Alike t := by
  have hrun : ∃ opened ∈ (Scheme.parse 1 0 "(when a b)").toOption,
      ∃ s ∈ (openOn (Scheme.parse 1) (⟨"(when a b)"⟩ : Buffer)).toOption,
        s.RunDistinguishes [.collapse ⟨1⟩, .commit [⟨⟨0, 8⟩, ⟨0, 9⟩, "(f c)"⟩] fun _ => .fallback] ∧
        (s.run [.collapse ⟨1⟩, .commit [⟨⟨0, 8⟩, ⟨0, 9⟩, "(f c)"⟩] fun _ => .fallback]).text = "(when a (f c))" := by
    decide +kernel
  obtain ⟨opened, hopened, s, hs, hfree, htext⟩ := hrun
  have hopened := mem_toOption_iff.mp hopened
  obtain ⟨s', hs', -, hruns⟩ := run_alike_parse hopened
  cases (mem_toOption_iff.mp hs).symm.trans hs'
  obtain ⟨t, ht, -, -, halike⟩ := hruns _ 0
  rw [htext] at ht
  exact ⟨opened, t, s, hopened, hs', hfree, ht, halike hfree⟩

/-- Two names have the same digest. Where one takes the place of the other, the label stays that of the old one. -/
theorem not_run_alike_parse_of_collision : ∃ s : Session Buffer,
    openOn (Scheme.parse 1) ⟨"deposit-total-a-checking7jo-.ihc"⟩ = .ok s ∧
    ∃ (s' : Session Buffer) (t : Tree), s.run [.commit [⟨⟨0, 16⟩, ⟨0, 24⟩, "-savings"⟩] fun _ => .fallback] = s' ∧
      s'.text = "deposit-total-a--savings7jo-.ihc" ∧ Scheme.parse 1 0 s'.text = .ok t ∧
      (s'.tree.node? 0).map (·.options) = some (.labelled "deposit-total-a-checking7jo-.ihc") ∧
      (t.node? 0).map (·.options) = some (.labelled "deposit-total-a--savings7jo-.ihc") ∧ ¬ s'.tree.Alike t := by
  have hrun : ∃ s ∈ (openOn (Scheme.parse 1) (⟨"deposit-total-a-checking7jo-.ihc"⟩ : Buffer)).toOption,
      (s.run [.commit [⟨⟨0, 16⟩, ⟨0, 24⟩, "-savings"⟩] fun _ => .fallback]).text = "deposit-total-a--savings7jo-.ihc" ∧
      ((s.run [.commit [⟨⟨0, 16⟩, ⟨0, 24⟩, "-savings"⟩] fun _ => .fallback]).tree.node? 0).map (·.options) =
        some (.labelled "deposit-total-a-checking7jo-.ihc") ∧
      ∃ t ∈ (Scheme.parse 1 0 "deposit-total-a--savings7jo-.ihc").toOption,
        (t.node? 0).map (·.options) = some (.labelled "deposit-total-a--savings7jo-.ihc") := by
    decide +kernel
  obtain ⟨s, hs, htext, hstale, t, ht, hlabel⟩ := hrun
  refine ⟨s, mem_toOption_iff.mp hs, _, t, rfl, htext, ?_, hstale, hlabel, fun halike => ?_⟩
  · rw [htext]
    exact mem_toOption_iff.mp ht
  · have hoptions := congrArg (Option.map (·.options)) (Table.anonymous_eq_iff.mp halike.nodes 0)
    rw [Option.map_map, Option.map_map] at hoptions
    have hsame := hstale.symm.trans (hoptions.trans hlabel)
    revert hsame
    decide

end Session

end StructuralEditor
