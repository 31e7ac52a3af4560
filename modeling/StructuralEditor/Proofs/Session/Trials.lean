import StructuralEditor.Proofs.Session.Run

/-!
# How a batch of edits ends

A batch is tried on a copy of the text, its text is parsed, and the live buffer takes it; only then is a tree published.

* `Session.CopyRefuses`, `Session.Unreadable`, `Session.LiveRefuses` : what can be said against a batch;
  `Session.tryEdits_eq_of_copyRefuses` and the lemmas after it : how its trial ends then;
* `Session.Overflows` : a sum for the default focus goes wrong; `Session.Judged`, `Session.judged_commit?` : how a batch
  ends;
* `Session.commit?_eq_ok` : a batch is published as with unbounded coordinates, if the regions of its changes are;
* `Session.exists_published`, `Session.accepted_of_commit` : batches over a buffer in memory.
-/

namespace StructuralEditor

/-- The hint leaves the focus to the default: it says so, or chooses a node that is not in the tree. -/
def FocusChoice.Defaults (choice : FocusChoice) (t : Tree) : Prop :=
  choice = .fallback ∨ ∃ id, choice = .node id ∧ t.node? id = none

namespace Session

variable {β : Type}

def withBuffer (s : Session β) (buffer : β) : Session β := { s with buffer := buffer }

/-! ## The default focus -/

section Focusing

variable {s : Session β} {parsed : Tree} {changes : List Change}

theorem chooseFocus?_eq_error_iff {t : Tree} {choice : FocusChoice} {e : Overflow} :
    s.chooseFocus? t changes choice = .error e ↔ choice.Defaults t ∧ settledRegions? changes = .error e := by
  have hdefault : ∀ {α : Type} (f : Option Nat → α),
      (defaultFocus? changes t >>= fun target => pure (f target)) = .error e ↔ settledRegions? changes = .error e := by
    intro α f
    unfold defaultFocus?
    cases settledRegions? changes with
    | error fault => exact ⟨fun h => congrArg _ (Except.error.inj h), fun h => congrArg _ (Except.error.inj h)⟩
    | ok regions => exact ⟨fun h => (nomatch h), fun h => (nomatch h)⟩
  cases choice with
  | fallback => exact (hdefault _).trans (and_iff_right (.inl rfl)).symm
  | clear =>
    refine ⟨fun h => (nomatch h), ?_⟩
    rintro ⟨h | ⟨id, h, -⟩, -⟩ <;> cases h
  | node id =>
    cases hid : t.node? id with
    | none =>
      simp only [chooseFocus?, hid, Option.isSome_none, Bool.false_eq_true, if_false]
      exact (hdefault _).trans (and_iff_right (.inr ⟨id, rfl, hid⟩)).symm
    | some node =>
      simp only [chooseFocus?, hid, Option.isSome_some, if_true]
      refine ⟨fun h => (nomatch h), ?_⟩
      rintro ⟨h | ⟨id', h, hnone⟩, -⟩
      · cases h
      · cases h
        cases hid.symm.trans hnone

theorem chooseFocus?_eq_ok (h : settledRegions? changes = .ok (settledRegions changes))
    (s : Session β) (t : Tree) (choice : FocusChoice) :
    s.chooseFocus? t changes choice = .ok (s.chooseFocus t changes choice) := by
  have hdefault : defaultFocus? changes t = .ok (defaultFocus changes t) := by
    rw [defaultFocus?, h]
    rfl
  cases choice with
  | fallback =>
    rw [chooseFocus?, hdefault]
    rfl
  | clear => rfl
  | node id =>
    unfold chooseFocus? chooseFocus
    rw [hdefault]
    by_cases hid : (t.node? id).isSome = true
    · simp only [if_pos hid]
      rfl
    · simp only [if_neg hid]
      rfl

section Publishing

variable [Hasher] {hint : Tree → FocusChoice}

theorem publish?_eq (s : Session β) (parsed : Tree) (buffer : β) (changes : List Change) (hint : Tree → FocusChoice) :
    s.publish? parsed buffer changes hint =
      (s.chooseFocus? (s.tree.reconcile parsed).1 changes (hint (s.tree.reconcile parsed).1)).map
        (s.settle (s.tree.reconcile parsed).1 (s.tree.reconcile parsed).2 parsed.table.size buffer changes) := rfl

theorem publish?_eq_error_iff {buffer : β} {e : Overflow} : s.publish? parsed buffer changes hint = .error e ↔
    (hint (s.tree.reconcile parsed).1).Defaults (s.tree.reconcile parsed).1 ∧ settledRegions? changes = .error e := by
  rw [← chooseFocus?_eq_error_iff (s := s), publish?_eq]
  cases s.chooseFocus? (s.tree.reconcile parsed).1 changes (hint (s.tree.reconcile parsed).1) with
  | error fault => exact ⟨fun h => congrArg _ (Except.error.inj h), fun h => congrArg _ (Except.error.inj h)⟩
  | ok target => exact ⟨fun h => (nomatch h), fun h => (nomatch h)⟩

theorem publish?_eq_ok (h : settledRegions? changes = .ok (settledRegions changes)) (s : Session β) (parsed : Tree)
    (buffer : β) (hint : Tree → FocusChoice) :
    s.publish? parsed buffer changes hint = .ok (s.publish parsed buffer changes hint) := by
  rw [publish?_eq, chooseFocus?_eq_ok h]
  rfl

theorem of_publish? {buffer : β} {s' : Session β} {committed : Committed}
    (h : s.publish? parsed buffer changes hint = .ok (s', committed)) :
    s'.buffer = buffer ∧ committed.changes = changes := by
  obtain ⟨target, -, h⟩ := ok_bind_iff.mp h
  cases h
  exact ⟨rfl, rfl⟩

end Publishing

end Focusing

/-! ## Trials -/

variable [TextBuffer β] {s : Session β} {edits : List Edit}

def CopyRefuses (s : Session β) (edits : List Edit) (e : EditError) : Prop :=
  Buffer.apply ⟨s.text⟩ edits = .error e

/-- A copy of the text takes the batch, but the edited text does not parse. -/
def Unreadable (s : Session β) (edits : List Edit) (e : ParseError) : Prop :=
  ∃ copy changes, Buffer.apply ⟨s.text⟩ edits = .ok (copy, changes) ∧ s.parser s.serial copy.text = .error e

/-- A copy of the text takes the batch, and the edited text parses. -/
def Readable (s : Session β) (edits : List Edit) (parsed : Tree) : Prop :=
  ∃ copy changes, Buffer.apply ⟨s.text⟩ edits = .ok (copy, changes) ∧ s.parser s.serial copy.text = .ok parsed

/-- The edited text parses, but the live buffer refuses the batch. -/
def LiveRefuses (s : Session β) (edits : List Edit) (e : EditError) : Prop :=
  (∃ parsed, s.Readable edits parsed) ∧ (TextBuffer.apply s.buffer edits).2 = .error e

theorem exists_verdict (s : Session β) (edits : List Edit) :
    (∃ e, s.CopyRefuses edits e) ∨ (∃ e, s.Unreadable edits e) ∨ (∃ e, s.LiveRefuses edits e) ∨
      ∃ parsed changes, s.Readable edits parsed ∧ (TextBuffer.apply s.buffer edits).2 = .ok changes := by
  cases hcopy : Buffer.apply ⟨s.text⟩ edits with
  | error e => exact .inl ⟨e, hcopy⟩
  | ok edited =>
    obtain ⟨copy, changes⟩ := edited
    cases hparse : s.parser s.serial copy.text with
    | error e => exact .inr (.inl ⟨e, copy, changes, hcopy, hparse⟩)
    | ok parsed =>
      have hreadable : s.Readable edits parsed := ⟨copy, changes, hcopy, hparse⟩
      cases hlive : (TextBuffer.apply s.buffer edits).2 with
      | error e => exact .inr (.inr (.inl ⟨e, ⟨parsed, hreadable⟩, hlive⟩))
      | ok changes => exact .inr (.inr (.inr ⟨parsed, changes, hreadable, rfl⟩))

theorem tryEdits_eq_of_copyRefuses {e : EditError} (h : s.CopyRefuses edits e) :
    s.tryEdits edits = (s.buffer, .error (.edit e)) := by
  unfold tryEdits
  rw [show Buffer.apply ⟨s.text⟩ edits = .error e from h]

theorem tryEdits_eq_of_unreadable {e : ParseError} (h : s.Unreadable edits e) :
    s.tryEdits edits = (s.buffer, .error (.parse e)) := by
  obtain ⟨copy, changes, hcopy, hparse⟩ := h
  unfold tryEdits
  simp only [hcopy, hparse]

theorem tryEdits_eq_of_liveRefuses {e : EditError} (h : s.LiveRefuses edits e) :
    s.tryEdits edits = ((TextBuffer.apply s.buffer edits).1, .error (.edit e)) := by
  obtain ⟨⟨parsed, copy, changes, hcopy, hparse⟩, hlive⟩ := h
  unfold tryEdits
  simp only [hcopy, hparse]
  rcases happly : TextBuffer.apply s.buffer edits with ⟨buffer, answer⟩
  rw [happly] at hlive
  cases hlive
  rfl

theorem tryEdits_eq_of_accepted {parsed : Tree} {changes : List Change} (h : s.Readable edits parsed)
    (hlive : (TextBuffer.apply s.buffer edits).2 = .ok changes) :
    s.tryEdits edits = ((TextBuffer.apply s.buffer edits).1, .ok (changes, parsed.withDepth s.tree.depth)) := by
  obtain ⟨copy, changes', hcopy, hparse⟩ := h
  unfold tryEdits
  simp only [hcopy, hparse]
  rcases happly : TextBuffer.apply s.buffer edits with ⟨buffer, answer⟩
  rw [happly] at hlive
  cases hlive
  rfl

theorem apply_buffer {b edited : Buffer} {changes : List Change} :
    TextBuffer.apply b edits = (edited, .ok changes) ↔ b.apply edits = .ok (edited, changes) := by
  cases happly : b.apply edits with
  | error e => simp [TextBuffer.apply, happly]
  | ok result => simp [TextBuffer.apply, happly, Prod.ext_iff]

section Commit

variable [Hasher] {hint : Tree → FocusChoice} {parsed : Tree} {changes : List Change}

/-! ## How a batch ends -/

/-- The live buffer takes a batch that is readable, but a sum for the default focus goes wrong where that is looked
for. -/
def Overflows (s : Session β) (edits : List Edit) (hint : Tree → FocusChoice) (e : Overflow) : Prop :=
  ∃ parsed changes tree, s.Readable edits parsed ∧ (TextBuffer.apply s.buffer edits).2 = .ok changes ∧
    tree = (s.tree.reconcile (parsed.withDepth s.tree.depth)).1 ∧ (hint tree).Defaults tree ∧
    settledRegions? changes = .error e

/-- How a batch ends: it fails with what the copy, the parser or the live buffer say against it, in this order; it
goes wrong with a sum for the default focus; and otherwise it is published, with the text that the live buffer makes
of it. -/
structure Judged (s : Session β) (edits : List Edit) (hint : Tree → FocusChoice)
    (result : Except Overflow (Session β × Except CommitError Committed)) : Prop where
  copyRefuses : ∀ e, s.CopyRefuses edits e → ∃ s', result = .ok (s', .error (.edit e))
  unreadable : ∀ e, s.Unreadable edits e → ∃ s', result = .ok (s', .error (.parse e))
  liveRefuses : ∀ e, s.LiveRefuses edits e → ∃ s', result = .ok (s', .error (.edit e))
  overflows : ∀ e, s.Overflows edits hint e → result = .error e
  published : (∀ e, ¬ s.CopyRefuses edits e) → (∀ e, ¬ s.Unreadable edits e) → (∀ e, ¬ s.LiveRefuses edits e) →
    (∀ e, ¬ s.Overflows edits hint e) → ∃ s' committed, result = .ok (s', .ok committed) ∧
      (TextBuffer.apply s.buffer edits).2 = .ok committed.changes ∧
      s'.text = TextBuffer.text (TextBuffer.apply s.buffer edits).1

theorem commit?_eq_of_error {buffer : β} {e : CommitError} (h : s.tryEdits edits = (buffer, .error e)) :
    s.commit? edits hint = .ok (s.withBuffer buffer, .error e) := by
  unfold commit?
  rw [h]
  rfl

theorem commit?_eq_of_ok {buffer : β} (h : s.tryEdits edits = (buffer, .ok (changes, parsed))) :
    s.commit? edits hint = (s.publish? parsed buffer changes hint).map fun r => (r.1, .ok r.2) := by
  unfold commit?
  rw [h]
  simp only
  cases s.publish? parsed buffer changes hint <;> rfl

theorem judged_commit? (s : Session β) (edits : List Edit) (hint : Tree → FocusChoice) :
    s.Judged edits hint (s.commit? edits hint) where
  copyRefuses := fun _ h => ⟨_, commit?_eq_of_error (tryEdits_eq_of_copyRefuses h)⟩
  unreadable := fun _ h => ⟨_, commit?_eq_of_error (tryEdits_eq_of_unreadable h)⟩
  liveRefuses := fun _ h => ⟨_, commit?_eq_of_error (tryEdits_eq_of_liveRefuses h)⟩
  overflows := by
    rintro e ⟨parsed, changes, tree, hreadable, hlive, rfl, hdefaults, hregions⟩
    rw [commit?_eq_of_ok (tryEdits_eq_of_accepted hreadable hlive), publish?_eq_error_iff.mpr ⟨hdefaults, hregions⟩]
    rfl
  published := by
    intro hcopy hunreadable hlive hoverflows
    rcases s.exists_verdict edits with ⟨e, h⟩ | ⟨e, h⟩ | ⟨e, h⟩ | ⟨parsed, changes, hreadable, happly⟩
    · exact absurd h (hcopy e)
    · exact absurd h (hunreadable e)
    · exact absurd h (hlive e)
    · rw [commit?_eq_of_ok (tryEdits_eq_of_accepted hreadable happly)]
      rcases hpublish : s.publish? (parsed.withDepth s.tree.depth) (TextBuffer.apply s.buffer edits).1 changes hint
        with e | ⟨s', committed⟩
      · obtain ⟨hdefaults, hregions⟩ := publish?_eq_error_iff.mp hpublish
        exact absurd ⟨parsed, changes, _, hreadable, happly, rfl, hdefaults, hregions⟩ (hoverflows e)
      · obtain ⟨hbuffer, rfl⟩ := of_publish? hpublish
        exact ⟨s', committed, rfl, happly, congrArg TextBuffer.text hbuffer⟩

/-- A failed batch leaves the session as it was, but for a live buffer that has refused it. -/
theorem of_commit?_eq_error {s' : Session β} {e : CommitError} (h : s.commit? edits hint = .ok (s', .error e)) :
    ∃ buffer, s' = s.withBuffer buffer ∧ (buffer = s.buffer ∨
      ∃ e, s.LiveRefuses edits e ∧ buffer = (TextBuffer.apply s.buffer edits).1) := by
  rcases s.exists_verdict edits with ⟨e', hv⟩ | ⟨e', hv⟩ | ⟨e', hv⟩ | ⟨parsed, changes, hreadable, happly⟩
  · cases (commit?_eq_of_error (tryEdits_eq_of_copyRefuses hv)).symm.trans h
    exact ⟨s.buffer, rfl, .inl rfl⟩
  · cases (commit?_eq_of_error (tryEdits_eq_of_unreadable hv)).symm.trans h
    exact ⟨s.buffer, rfl, .inl rfl⟩
  · cases (commit?_eq_of_error (tryEdits_eq_of_liveRefuses hv)).symm.trans h
    exact ⟨_, rfl, .inr ⟨e', hv, rfl⟩⟩
  · rw [commit?_eq_of_ok (tryEdits_eq_of_accepted hreadable happly)] at h
    cases hpublish : s.publish? (parsed.withDepth s.tree.depth) (TextBuffer.apply s.buffer edits).1 changes hint with
    | error fault =>
      rw [hpublish] at h
      cases h
    | ok r =>
      rw [hpublish] at h
      cases h

/-! ## Unbounded coordinates -/

theorem commit_eq_of_accepted (h : s.Readable edits parsed)
    (hlive : (TextBuffer.apply s.buffer edits).2 = .ok changes) (hint : Tree → FocusChoice) : s.commit edits hint =
      ((s.publish (parsed.withDepth s.tree.depth) (TextBuffer.apply s.buffer edits).1 changes hint).1,
        .ok (s.publish (parsed.withDepth s.tree.depth) (TextBuffer.apply s.buffer edits).1 changes hint).2) := by
  unfold commit
  rw [tryEdits_eq_of_accepted h hlive]

/-- A batch is published as with unbounded coordinates, if the regions of its changes are. -/
theorem commit?_eq_ok (h : ∀ changes, (TextBuffer.apply s.buffer edits).2 = .ok changes →
    settledRegions? changes = .ok (settledRegions changes)) (hint : Tree → FocusChoice) :
    s.commit? edits hint = .ok (s.commit edits hint) := by
  have hfailed : ∀ {buffer : β} {e : CommitError}, s.tryEdits edits = (buffer, .error e) →
      s.commit? edits hint = .ok (s.commit edits hint) := by
    intro buffer e htry
    rw [commit?_eq_of_error htry, commit, htry]
    rfl
  rcases s.exists_verdict edits with ⟨e, hv⟩ | ⟨e, hv⟩ | ⟨e, hv⟩ | ⟨parsed, changes, hreadable, hlive⟩
  · exact hfailed (tryEdits_eq_of_copyRefuses hv)
  · exact hfailed (tryEdits_eq_of_unreadable hv)
  · exact hfailed (tryEdits_eq_of_liveRefuses hv)
  · rw [commit?_eq_of_ok (tryEdits_eq_of_accepted hreadable hlive), commit_eq_of_accepted hreadable hlive,
      publish?_eq_ok (h changes hlive)]
    rfl

/-- A batch that succeeds was readable and taken by the live buffer, and is published. -/
theorem publish_of_commit {s' : Session β} {committed : Committed} (h : s.commit edits hint = (s', .ok committed)) :
    ∃ parsed, s.Readable edits parsed ∧ (TextBuffer.apply s.buffer edits).2 = .ok committed.changes ∧
      s.publish (parsed.withDepth s.tree.depth) (TextBuffer.apply s.buffer edits).1 committed.changes hint =
        (s', committed) := by
  have hfailed : ∀ {buffer : β} {e : CommitError}, s.tryEdits edits ≠ (buffer, .error e) := by
    intro buffer e htry
    rw [commit, htry] at h
    cases h
  rcases s.exists_verdict edits with ⟨e, hv⟩ | ⟨e, hv⟩ | ⟨e, hv⟩ | ⟨parsed, changes, hreadable, hlive⟩
  · exact absurd (tryEdits_eq_of_copyRefuses hv) hfailed
  · exact absurd (tryEdits_eq_of_unreadable hv) hfailed
  · exact absurd (tryEdits_eq_of_liveRefuses hv) hfailed
  · cases (commit_eq_of_accepted hreadable hlive hint).symm.trans h
    exact ⟨parsed, hreadable, hlive, rfl⟩

/-! ## Buffers in memory -/

/-- A batch that the buffer takes is published, if the edited text parses. -/
theorem exists_published {s : Session Buffer} {edited : Buffer}
    (happly : Buffer.apply s.buffer edits = .ok (edited, changes))
    (hparsed : s.parser s.serial edited.text = .ok parsed) (hint : Tree → FocusChoice) :
    ∃ s' committed, s.commit edits hint = (s', .ok committed) ∧ s'.text = edited.text ∧ Published s parsed s' := by
  have hlive : TextBuffer.apply s.buffer edits = (edited, .ok changes) := apply_buffer.mpr happly
  have hreadable : s.Readable edits parsed := ⟨edited, changes, happly, hparsed⟩
  have hcommit := commit_eq_of_accepted hreadable (congrArg Prod.snd hlive) hint
  rw [hlive] at hcommit
  exact ⟨_, _, hcommit, rfl, rfl, hparsed, rfl, rfl, rfl⟩

/-- A batch that was published was taken by the buffer, and what is live then parses. -/
theorem accepted_of_commit {s s' : Session Buffer} {committed : Committed}
    (h : s.commit edits hint = (s', .ok committed)) : ∃ parsed,
      Buffer.apply s.buffer edits = .ok (s'.buffer, committed.changes) ∧ s.parser s.serial s'.text = .ok parsed := by
  obtain ⟨parsed, ⟨copy, changes, hcopy, hparsed⟩, hlive, hpublish⟩ := publish_of_commit h
  obtain rfl : _ = s' := congrArg Prod.fst hpublish
  have happly := apply_buffer.mp (Prod.ext rfl hlive)
  cases hcopy.symm.trans happly
  exact ⟨parsed, happly, hparsed⟩

end Commit

end Session

end StructuralEditor
