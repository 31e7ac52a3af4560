import StructuralEditor.Proofs.Session.Trials

/-!
# Batches are published as a whole or not at all

* `TextBuffer.KeepsRefused` : a refused batch leaves the text alone; `TextBuffer.Indistinct` : buffers that nothing
  that is asked of them tells apart;
* `Session.outcomes?`, `Session.outcomes?_of_indistinct` : what is answered and seen along a run, which is the same over
  indistinct buffers;
* `Desk`, `Desk.outcomes?_eq` : a session with the copy that batches are tried on, and what the last trial left there
  is never seen;
* `Desk.commit?_atomic` : how a batch ends, and that a failed one changes nothing;
* `Desk.commit?_not_atomic` : what a live buffer that has refused a batch can do to the next one.
-/

namespace StructuralEditor

/-! ## Buffers -/

namespace TextBuffer

variable {β : Type} [TextBuffer β]

/-- A refused batch leaves the text as it was. -/
def KeepsRefused (β : Type) [TextBuffer β] : Prop :=
  ∀ (b b' : β) (edits : List Edit) (e : EditError), apply b edits = (b', .error e) → text b' = text b

/-- What a buffer answers to batches one after the other, with the text after each. -/
def answers (b : β) : List (List Edit) → List (Except EditError (List Change) × String)
  | [] => []
  | edits :: later => ((apply b edits).2, text (apply b edits).1) :: answers (apply b edits).1 later

/-- The buffers have the same text, and answer alike whatever they are asked. -/
structure Indistinct (b b' : β) : Prop where
  text_eq : text b = text b'
  answers_eq : ∀ batches, answers b batches = answers b' batches

theorem Indistinct.refl (b : β) : Indistinct b b := ⟨rfl, fun _ => rfl⟩

theorem Indistinct.apply {b b' : β} (h : Indistinct b b') (edits : List Edit) :
    (apply b edits).2 = (apply b' edits).2 ∧ Indistinct (apply b edits).1 (apply b' edits).1 := by
  have hnow := List.cons.inj (h.answers_eq [edits])
  refine ⟨congrArg Prod.fst hnow.1, congrArg Prod.snd hnow.1, fun later => ?_⟩
  exact (List.cons.inj (h.answers_eq (edits :: later))).2

/-- What a batch does is settled by the text. -/
def TextOnly (β : Type) [TextBuffer β] : Prop :=
  ∀ (b b' : β), text b = text b' → ∀ edits, (apply b edits).2 = (apply b' edits).2 ∧
    text (apply b edits).1 = text (apply b' edits).1

theorem TextOnly.indistinct (h : TextOnly β) {b b' : β} (htext : text b = text b') : Indistinct b b' := by
  refine ⟨htext, fun batches => ?_⟩
  induction batches generalizing b b' with
  | nil => rfl
  | cons edits later ih =>
    obtain ⟨hanswer, htext'⟩ := h b b' htext edits
    rw [answers, answers, hanswer, htext', ih htext']

end TextBuffer

open TextBuffer (KeepsRefused Indistinct)

namespace Session

variable {β : Type}

/-! ## Another buffer -/

theorem setFocus_withBuffer (s : Session β) (b : β) (id : Option Nat) :
    (s.withBuffer b).setFocus id = ((s.setFocus id).1.withBuffer b, (s.setFocus id).2) ∧
      (s.setFocus id).1.buffer = s.buffer := by
  rcases id with _ | id
  · exact ⟨rfl, rfl⟩
  · have htree : (s.withBuffer b).tree = s.tree := rfl
    simp only [setFocus, htree]
    cases s.tree.node? id <;> exact ⟨rfl, rfl⟩

theorem collapse_withBuffer (s : Session β) (b : β) (identity : Identity) :
    (s.withBuffer b).collapse identity = (s.collapse identity).withBuffer b ∧
      (s.collapse identity).buffer = s.buffer := by
  have hsame : (s.withBuffer b).isCollapsed identity = s.isCollapsed identity := rfl
  simp only [collapse, hsame]
  split <;> exact ⟨rfl, rfl⟩

theorem toggle_withBuffer (s : Session β) (b : β) (identity : Identity) :
    (s.withBuffer b).toggle identity = ((s.toggle identity).1.withBuffer b, (s.toggle identity).2) ∧
      (s.toggle identity).1.buffer = s.buffer := by
  have hsame : (s.withBuffer b).isCollapsed identity = s.isCollapsed identity := rfl
  obtain ⟨hcollapse, hbuffer⟩ := s.collapse_withBuffer b identity
  simp only [toggle, hsame, hcollapse]
  split
  · exact ⟨rfl, rfl⟩
  · exact ⟨rfl, hbuffer⟩

theorem publish?_withBuffer [Hasher] {parsed : Tree} {changes : List Change} {hint : Tree → FocusChoice}
    (s : Session β) (b buffer buffer' : β) :
    (s.withBuffer b).publish? parsed buffer' changes hint =
      (s.publish? parsed buffer changes hint).map fun r => (r.1.withBuffer buffer', r.2) := by
  have hchoose : (s.withBuffer b).chooseFocus? = s.chooseFocus? := rfl
  have htree : (s.withBuffer b).tree = s.tree := rfl
  rw [publish?_eq, publish?_eq, hchoose, htree]
  cases s.chooseFocus? (s.tree.reconcile parsed).1 changes (hint (s.tree.reconcile parsed).1) <;> rfl

variable [TextBuffer β]

/-- Over indistinct buffers, the trial of a batch ends in the same way and leaves indistinct buffers. -/
theorem tryEdits_of_indistinct (s : Session β) {b : β} (h : Indistinct b s.buffer) (edits : List Edit) :
    ((s.withBuffer b).tryEdits edits).2 = (s.tryEdits edits).2 ∧
      Indistinct ((s.withBuffer b).tryEdits edits).1 (s.tryEdits edits).1 := by
  have htext : (s.withBuffer b).text = s.text := h.text_eq
  obtain ⟨hanswer, hafter⟩ := h.apply edits
  have hreadable : ∀ {parsed}, s.Readable edits parsed → (s.withBuffer b).Readable edits parsed := by
    intro parsed hv
    unfold Readable
    rwa [htext]
  rcases s.exists_verdict edits with ⟨e, hv⟩ | ⟨e, hv⟩ | ⟨e, hv⟩ | ⟨parsed, changes, hv, happly⟩
  · have hv' : (s.withBuffer b).CopyRefuses edits e := by
      unfold CopyRefuses
      rwa [htext]
    rw [tryEdits_eq_of_copyRefuses hv, tryEdits_eq_of_copyRefuses hv']
    exact ⟨rfl, h⟩
  · have hv' : (s.withBuffer b).Unreadable edits e := by
      unfold Unreadable
      rwa [htext]
    rw [tryEdits_eq_of_unreadable hv, tryEdits_eq_of_unreadable hv']
    exact ⟨rfl, h⟩
  · have hv' : (s.withBuffer b).LiveRefuses edits e := ⟨hv.1.imp fun _ => hreadable, hanswer.trans hv.2⟩
    rw [tryEdits_eq_of_liveRefuses hv, tryEdits_eq_of_liveRefuses hv']
    exact ⟨rfl, hafter⟩
  · rw [tryEdits_eq_of_accepted hv happly, tryEdits_eq_of_accepted (hreadable hv) (hanswer.trans happly)]
    exact ⟨rfl, hafter⟩

/-! ## Later operations -/

structure View where
  text : String
  tree : Tree
  focus : Option Identity
  collapsed : List Identity

def view (s : Session β) : View := ⟨s.text, s.tree, s.focus, s.collapsed⟩

inductive Answer where
  | done
  | said (accepted : Bool)
  | minted (identity : Identity)
  | committed (outcome : Except CommitError Committed)

section Acting

variable [Hasher]

def act? (s : Session β) : Operation → Except Overflow (Session β × Answer)
  | .commit edits hint => (s.commit? edits hint).map fun r => (r.1, .committed r.2)
  | .setFocus id => .ok ((s.setFocus id).1, .said (s.setFocus id).2)
  | .collapse identity => .ok (s.collapse identity, .done)
  | .expand identity => .ok (s.expand identity, .done)
  | .toggle identity => .ok ((s.toggle identity).1, .said (s.toggle identity).2)
  | .mint => .ok (s.mint.1, .minted s.mint.2)

/-- What operations one after the other answer, with what is seen after each. Nothing follows one that goes wrong. -/
def outcomes? (s : Session β) : List Operation → List (Except Overflow (Answer × View))
  | [] => []
  | operation :: later =>
    match s.act? operation with
    | .error e => [.error e]
    | .ok (s', answer) => .ok (answer, s'.view) :: s'.outcomes? later

/-- Over indistinct buffers, a batch ends in the same way and leaves the same, but for indistinct buffers. -/
theorem commit?_of_indistinct (s : Session β) {b : β} (h : Indistinct b s.buffer) (edits : List Edit)
    (hint : Tree → FocusChoice) : ∃ b', (∀ r, s.commit? edits hint = .ok r → Indistinct b' r.1.buffer) ∧
      (s.withBuffer b).commit? edits hint = (s.commit? edits hint).map fun r => (r.1.withBuffer b', r.2) := by
  obtain ⟨hresult, hafter⟩ := s.tryEdits_of_indistinct h edits
  rcases htry : s.tryEdits edits with ⟨buffer, result⟩
  rcases htry' : (s.withBuffer b).tryEdits edits with ⟨b', result'⟩
  rw [htry, htry'] at hresult hafter
  obtain rfl : result' = result := hresult
  cases result' with
  | error e =>
    rw [commit?_eq_of_error htry, commit?_eq_of_error htry']
    refine ⟨b', fun r hr => ?_, rfl⟩
    cases hr
    exact hafter
  | ok accepted =>
    obtain ⟨changes, parsed⟩ := accepted
    rw [commit?_eq_of_ok htry, commit?_eq_of_ok htry', s.publish?_withBuffer b buffer b']
    cases hpublish : s.publish? parsed buffer changes hint with
    | error e => exact ⟨b', fun r hr => (nomatch hr), rfl⟩
    | ok published =>
      refine ⟨b', fun r hr => ?_, rfl⟩
      cases hr
      rw [(of_publish? hpublish).1]
      exact hafter

/-- Over indistinct buffers, an operation answers the same and leaves the same, but for indistinct buffers. -/
theorem act?_of_indistinct (s : Session β) {b : β} (h : Indistinct b s.buffer) (operation : Operation) :
    ∃ b', (∀ r, s.act? operation = .ok r → Indistinct b' r.1.buffer) ∧
      (s.withBuffer b).act? operation = (s.act? operation).map fun r => (r.1.withBuffer b', r.2) := by
  have hquiet : ∀ (s' : Session β) {answer : Answer}, s'.buffer = s.buffer → s.act? operation = .ok (s', answer) →
      (s.withBuffer b).act? operation = .ok (s'.withBuffer b, answer) →
      ∃ b', (∀ r, s.act? operation = .ok r → Indistinct b' r.1.buffer) ∧
        (s.withBuffer b).act? operation = (s.act? operation).map fun r => (r.1.withBuffer b', r.2) := by
    intro s' answer hbuffer hact hact'
    rw [hact, hact']
    refine ⟨b, fun r hr => ?_, rfl⟩
    cases hr
    rw [hbuffer]
    exact h
  cases operation with
  | commit edits hint =>
    obtain ⟨b', hafter, hcommit⟩ := s.commit?_of_indistinct h edits hint
    refine ⟨b', ?_, ?_⟩
    · rintro ⟨s', answer⟩ hr
      rw [act?] at hr
      cases hresult : s.commit? edits hint with
      | error e =>
        rw [hresult] at hr
        cases hr
      | ok result =>
        rw [hresult] at hr
        cases hr
        exact hafter _ hresult
    · rw [act?, act?, hcommit]
      cases s.commit? edits hint <;> rfl
  | setFocus id =>
    obtain ⟨heq, hbuffer⟩ := s.setFocus_withBuffer b id
    refine hquiet _ hbuffer rfl ?_
    rw [act?, heq]
  | collapse identity =>
    obtain ⟨heq, hbuffer⟩ := s.collapse_withBuffer b identity
    refine hquiet _ hbuffer rfl ?_
    rw [act?, heq]
  | expand identity => exact hquiet (s.expand identity) rfl rfl rfl
  | toggle identity =>
    obtain ⟨heq, hbuffer⟩ := s.toggle_withBuffer b identity
    refine hquiet _ hbuffer rfl ?_
    rw [act?, heq]
  | mint => exact hquiet s.mint.1 rfl rfl rfl

theorem outcomes?_of_indistinct (s : Session β) {b : β} (h : Indistinct b s.buffer) (operations : List Operation) :
    (s.withBuffer b).outcomes? operations = s.outcomes? operations := by
  induction operations generalizing s b with
  | nil => rfl
  | cons operation later ih =>
    obtain ⟨b', hafter, hact⟩ := s.act?_of_indistinct h operation
    rw [outcomes?, outcomes?, hact]
    cases hresult : s.act? operation with
    | error e => rfl
    | ok result =>
      have hb' := hafter result hresult
      have hview : (result.1.withBuffer b').view = result.1.view := by
        unfold view text
        rw [← hb'.text_eq]
        rfl
      simp only [Except.map, hview, ih _ hb']

end Acting

end Session

/-! ## The copy -/

def Buffer.overwrite (b : Buffer) (text : String) : Buffer := { b with text := text }

/-- A session with the copy of its text that batches are tried on. The copy keeps what the last trial made of it. -/
structure Desk (β : Type) where
  session : Session β
  copy : Buffer

namespace Desk

variable {β : Type} [TextBuffer β]

open Session (Operation Answer View)

section Trying

variable [Hasher]

/-- Overwrites the copy with the live text and tries a batch of edits on it; what parses then is published, if the live
buffer takes the batch too. -/
def commit? (d : Desk β) (edits : List Edit) (hint : Tree → FocusChoice) :
    Except Overflow (Desk β × Except CommitError Committed) :=
  let s := d.session
  match TextBuffer.apply (d.copy.overwrite s.text) edits with
  | (copy, .error e) => .ok (⟨s, copy⟩, .error (.edit e))
  | (copy, .ok _) =>
    match s.parser s.serial copy.text with
    | .error e => .ok (⟨s, copy⟩, .error (.parse e))
    | .ok parsed =>
      match TextBuffer.apply s.buffer edits with
      | (buffer, .error e) => .ok (⟨s.withBuffer buffer, copy⟩, .error (.edit e))
      | (buffer, .ok changes) => do
        let (session, committed) ← s.publish? (parsed.withDepth s.tree.depth) buffer changes hint
        return (⟨session, copy⟩, .ok committed)

def act? (d : Desk β) : Operation → Except Overflow (Desk β × Answer)
  | .commit edits hint => (d.commit? edits hint).map fun r => (r.1, .committed r.2)
  | operation => (d.session.act? operation).map fun r => (⟨r.1, d.copy⟩, r.2)

/-- What operations one after the other answer, with what is seen after each. Nothing follows one that goes wrong. -/
def outcomes? (d : Desk β) : List Operation → List (Except Overflow (Answer × View))
  | [] => []
  | operation :: later =>
    match d.act? operation with
    | .error e => [.error e]
    | .ok (d', answer) => .ok (answer, d'.session.view) :: d'.outcomes? later

theorem commit?_eq (d : Desk β) (edits : List Edit) (hint : Tree → FocusChoice) :
    (d.commit? edits hint).map (fun r => (r.1.session, r.2)) = d.session.commit? edits hint := by
  have hfresh : d.copy.overwrite d.session.text = ⟨d.session.text⟩ := rfl
  cases hcopy : Buffer.apply ⟨d.session.text⟩ edits with
  | error e =>
    have htrial : TextBuffer.apply (d.copy.overwrite d.session.text) edits = (⟨d.session.text⟩, .error e) := by
      simp only [hfresh, TextBuffer.apply, hcopy]
    simp only [commit?, Session.commit?, Session.tryEdits, hcopy, htrial]
    rfl
  | ok edited =>
    obtain ⟨copy, changes⟩ := edited
    have htrial : TextBuffer.apply (d.copy.overwrite d.session.text) edits = (copy, .ok changes) := by
      simp only [hfresh, TextBuffer.apply, hcopy]
    simp only [commit?, Session.commit?, Session.tryEdits, hcopy, htrial]
    cases d.session.parser d.session.serial copy.text with
    | error e => rfl
    | ok parsed =>
      simp only
      rcases TextBuffer.apply d.session.buffer edits with ⟨buffer, e | changes⟩
      · rfl
      · simp only
        cases d.session.publish? (parsed.withDepth d.session.tree.depth) buffer changes hint <;> rfl

/-- Whatever is left on the copy, an operation answers the same and leaves the same session. -/
theorem act?_eq (d : Desk β) (operation : Operation) :
    (d.act? operation).map (fun r => (r.1.session, r.2)) = d.session.act? operation := by
  cases operation with
  | commit edits hint =>
    rw [act?, Session.act?, ← d.commit?_eq edits hint]
    cases d.commit? edits hint <;> rfl
  | setFocus | collapse | expand | toggle | mint => rfl

theorem outcomes?_eq (d : Desk β) (operations : List Operation) :
    d.outcomes? operations = d.session.outcomes? operations := by
  induction operations generalizing d with
  | nil => rfl
  | cons operation later ih =>
    rw [outcomes?, Session.outcomes?, ← d.act?_eq operation]
    cases d.act? operation with
    | error e => rfl
    | ok result => simp only [Except.map, ih]

/-- A batch ends as the copy, the parser and the live buffer say, unless a sum for the default focus goes wrong. A
failed one changes nothing that is seen, and nothing later either, whatever stands on the copy, unless the live
buffer itself is another one for having refused it. -/
theorem commit?_atomic (hkeep : KeepsRefused β) (d : Desk β) (edits : List Edit) (hint : Tree → FocusChoice) :
    d.session.Judged edits hint ((d.commit? edits hint).map fun r => (r.1.session, r.2)) ∧
    ∀ d' e, d.commit? edits hint = .ok (d', .error e) →
      d'.session.view = d.session.view ∧
      ((∀ e', d.session.LiveRefuses edits e' →
          Indistinct (TextBuffer.apply d.session.buffer edits).1 d.session.buffer) →
        ∀ copy operations, d'.outcomes? operations = outcomes? ⟨d.session, copy⟩ operations) := by
  rw [d.commit?_eq edits hint]
  refine ⟨d.session.judged_commit? edits hint, fun d' e he => ?_⟩
  have hsession : d.session.commit? edits hint = .ok (d'.session, .error e) := by
    rw [← d.commit?_eq edits hint, he]
    rfl
  obtain ⟨buffer, hbuffers, hbuffer⟩ := Session.of_commit?_eq_error hsession
  rw [hbuffers]
  refine ⟨?_, fun hindistinct copy operations => ?_⟩
  · have htext : TextBuffer.text buffer = TextBuffer.text d.session.buffer := by
      rcases hbuffer with rfl | ⟨e', hlive, rfl⟩
      · rfl
      · exact hkeep _ _ edits e' (Prod.ext rfl hlive.2)
    unfold Session.view Session.text Session.withBuffer
    rw [htext]
  · have hsame : Indistinct buffer d.session.buffer := by
      rcases hbuffer with rfl | ⟨e', hlive, rfl⟩
      · exact .refl _
      · exact hindistinct e' hlive
    rw [outcomes?_eq, outcomes?_eq, hbuffers]
    exact d.session.outcomes?_of_indistinct hsame operations

end Trying

end Desk

/-- A buffer that refuses every batch, and counts how many. -/
structure Locked where
  text : String
  refused : Nat

instance : TextBuffer Locked where
  text := Locked.text
  apply b _ := ({ b with refused := b.refused + 1 }, .error (.outOfBounds ⟨7, 7⟩ 7))

namespace Desk

open Session (Operation)

/-- A desk with a given live buffer, for which every text is an empty program. -/
def ofBuffer {β : Type} (buffer : β) (copy : Buffer) : Desk β :=
  ⟨⟨fun _ _ => .ok Tree.empty, buffer, Tree.empty, none, [], 0⟩, copy⟩

/-- The copy keeps what it has taken, although the live buffer refuses it. -/
theorem commit?_ofBuffer [Hasher] {β : Type} [TextBuffer β] {buffer buffer' : β} {copy copy' : Buffer}
    {edits : List Edit} {changes : List Change} {e : EditError} (hint : Tree → FocusChoice)
    (htrial : Buffer.apply ⟨TextBuffer.text buffer⟩ edits = .ok (copy', changes))
    (hlive : TextBuffer.apply buffer edits = (buffer', .error e)) :
    (ofBuffer buffer copy).commit? edits hint = .ok (ofBuffer buffer' copy', .error (.edit e)) := by
  have hcopy : TextBuffer.apply ((ofBuffer buffer copy).copy.overwrite (ofBuffer buffer copy).session.text) edits =
      (copy', .ok changes) := Session.apply_buffer.mpr htrial
  have hbuffer : TextBuffer.apply (ofBuffer buffer copy).session.buffer edits = (buffer', .error e) := hlive
  have hparse : (ofBuffer buffer copy).session.parser (ofBuffer buffer copy).session.serial copy'.text =
      .ok Tree.empty := rfl
  simp only [commit?, hcopy, hparse, hbuffer]
  rfl

theorem keepsRefused_locked : KeepsRefused Locked := by
  intro b b' edits e h
  cases h
  rfl

theorem textOnly_locked : TextBuffer.TextOnly Locked := fun _ _ htext _ => ⟨rfl, htext⟩

/-- A batch that only the live buffer refuses. It is left on the copy, and the refusal is counted, but neither shows. -/
theorem commit?_atomic_locked : ∃ (d d' : Desk Locked) (edits : List Edit) (e : CommitError),
    d = ofBuffer ⟨"ab", 0⟩ ⟨"cd"⟩ ∧ edits = [⟨⟨0, 1⟩, ⟨0, 1⟩, "c"⟩] ∧
      d.session.LiveRefuses edits (.outOfBounds ⟨7, 7⟩ 7) ∧
      d.commit? edits (fun _ => .fallback) = .ok (d', .error e) ∧ d'.copy = ⟨"acb"⟩ ∧ d'.session.buffer.refused = 1 ∧
      d'.session.view = d.session.view ∧ ∀ operations, d'.outcomes? operations = d.outcomes? operations := by
  have htrial : Buffer.apply ⟨"ab"⟩ [⟨⟨0, 1⟩, ⟨0, 1⟩, "c"⟩] = .ok (⟨"acb"⟩, [⟨⟨0, 1⟩, ⟨0, 1⟩, "c", ""⟩]) := by
    decide +kernel
  have hcommit : (ofBuffer (⟨"ab", 0⟩ : Locked) ⟨"cd"⟩).commit? [⟨⟨0, 1⟩, ⟨0, 1⟩, "c"⟩] (fun _ => .fallback) =
      .ok (ofBuffer ⟨"ab", 1⟩ ⟨"acb"⟩, .error (.edit (.outOfBounds ⟨7, 7⟩ 7))) := commit?_ofBuffer _ htrial rfl
  have hlive : (ofBuffer (⟨"ab", 0⟩ : Locked) ⟨"cd"⟩).session.LiveRefuses [⟨⟨0, 1⟩, ⟨0, 1⟩, "c"⟩]
      (.outOfBounds ⟨7, 7⟩ 7) :=
    ⟨⟨Tree.empty, ⟨"acb"⟩, [⟨⟨0, 1⟩, ⟨0, 1⟩, "c", ""⟩], htrial, rfl⟩, rfl⟩
  obtain ⟨-, hfailed⟩ := commit?_atomic keepsRefused_locked (ofBuffer ⟨"ab", 0⟩ ⟨"cd"⟩)
    [⟨⟨0, 1⟩, ⟨0, 1⟩, "c"⟩] fun _ => .fallback
  obtain ⟨hview, hlater⟩ := hfailed _ _ hcommit
  exact ⟨_, _, _, _, rfl, rfl, hlive, hcommit, rfl, rfl, hview, hlater (fun _ _ => textOnly_locked.indistinct rfl) _⟩

end Desk

/-- A buffer that refuses the first batch, and then answers each with changes at the end of a very long line. -/
structure Moody where
  text : String
  refused : Bool

instance : TextBuffer Moody where
  text := Moody.text
  apply b _ :=
    if b.refused then
      (b, .ok [⟨⟨0, 3000000000⟩, ⟨0, 3000000000⟩, "x", ""⟩, ⟨⟨0, 2999999999⟩, ⟨0, 2999999999⟩, "y", ""⟩])
    else ({ b with refused := true }, .error (.outOfBounds ⟨7, 7⟩ 7))

namespace Desk

open Session (Operation)

theorem keepsRefused_moody : KeepsRefused Moody := by
  rintro ⟨text, refused⟩ b' edits e h
  cases refused <;> cases h
  rfl

/-- A batch that the live buffer refuses the first time is taken the second time, for having been refused. Nobody says
anything against it then, but it does not succeed: a sum for the default focus goes wrong. -/
theorem commit?_not_atomic : KeepsRefused Moody ∧
    ∃ (d d' : Desk Moody) (edits : List Edit) (e : CommitError), d = ofBuffer ⟨"ab", false⟩ ⟨"ab"⟩ ∧
      d.commit? edits (fun _ => .fallback) = .ok (d', .error e) ∧
      (∀ e, ¬ d'.session.CopyRefuses edits e) ∧ (∀ e, ¬ d'.session.Unreadable edits e) ∧
      (∀ e, ¬ d'.session.LiveRefuses edits e) ∧ d'.commit? edits (fun _ => .fallback) = .error .addition ∧
      d'.outcomes? [.commit edits fun _ => .fallback] ≠ d.outcomes? [.commit edits fun _ => .fallback] := by
  have htrial : Buffer.apply ⟨"ab"⟩ [⟨⟨0, 1⟩, ⟨0, 1⟩, "c"⟩] = .ok (⟨"acb"⟩, [⟨⟨0, 1⟩, ⟨0, 1⟩, "c", ""⟩]) := by
    decide +kernel
  have hfirst : (ofBuffer (⟨"ab", false⟩ : Moody) ⟨"ab"⟩).commit? [⟨⟨0, 1⟩, ⟨0, 1⟩, "c"⟩] (fun _ => .fallback) =
      .ok (ofBuffer ⟨"ab", true⟩ ⟨"acb"⟩, .error (.edit (.outOfBounds ⟨7, 7⟩ 7))) := commit?_ofBuffer _ htrial rfl
  have hregions : settledRegions?
      [⟨⟨0, 3000000000⟩, ⟨0, 3000000000⟩, "x", ""⟩, ⟨⟨0, 2999999999⟩, ⟨0, 2999999999⟩, "y", ""⟩] =
        .error .addition := by decide +kernel
  have hreadable : (ofBuffer (⟨"ab", true⟩ : Moody) ⟨"acb"⟩).session.Readable [⟨⟨0, 1⟩, ⟨0, 1⟩, "c"⟩] Tree.empty :=
    ⟨_, _, htrial, rfl⟩
  have hsecond : (ofBuffer (⟨"ab", true⟩ : Moody) ⟨"acb"⟩).commit? [⟨⟨0, 1⟩, ⟨0, 1⟩, "c"⟩] (fun _ => .fallback) =
      .error .addition := by
    have hjudged := Session.judged_commit? (ofBuffer (⟨"ab", true⟩ : Moody) ⟨"acb"⟩).session
      [⟨⟨0, 1⟩, ⟨0, 1⟩, "c"⟩] fun _ => .fallback
    have hover := hjudged.overflows .addition ⟨Tree.empty, _, _, hreadable, rfl, rfl, .inl rfl, hregions⟩
    rw [← commit?_eq] at hover
    cases hcommit : (ofBuffer (⟨"ab", true⟩ : Moody) ⟨"acb"⟩).commit? [⟨⟨0, 1⟩, ⟨0, 1⟩, "c"⟩] (fun _ => .fallback) with
    | error e =>
      rw [hcommit] at hover
      exact congrArg _ (Except.error.inj hover)
    | ok result =>
      rw [hcommit] at hover
      cases hover
  refine ⟨keepsRefused_moody, _, _, _, _, rfl, hfirst, fun e h => ?_, fun e h => ?_, fun e h => ?_, hsecond, ?_⟩
  · obtain ⟨copy, changes, hcopy, -⟩ := hreadable
    cases hcopy.symm.trans h
  · obtain ⟨copy, changes, -, hparse⟩ := h
    cases hparse
  · cases h.2
  · simp only [outcomes?, act?, hfirst, hsecond, Except.map]
    intro h
    cases h

end Desk

end StructuralEditor
