import StructuralEditor.Proofs.CommandLine.Editing
import StructuralEditor.Proofs.Scheme.Nesting
import StructuralEditor.Proofs.Tree.Snapping

/-!
# Descriptions of nodes

* `CommandLine.describeAt_eq_error_iff` : a tree has nothing to describe only at the empty path or if it is empty;
* `CommandLine.DescribeFails`, `CommandLine.runOn_describe_eq_error_iff` : when the command that describes a node of a
  file fails, and with which error;
* `CommandLine.snapped_and_described` : paths that lead nowhere are snapped to a node, which is described.
-/

namespace StructuralEditor

namespace CommandLine

/-! ## A tree -/

theorem describeAt_eq_error_iff {t : Tree} (h : t.Built) (path : Path) (e : CommandError) :
    describeAt t path = .error e ↔ (path.segments = [] ∨ t.isEmpty = true) ∧ e = .nothingAtPath path := by
  have hnone : (t.byPath? path <|> t.closest? path.segments) = none ↔ path.segments = [] ∨ t.isEmpty = true := by
    rw [Option.orElse_eq_none, (h.snapped path.segments).none_iff, h.isEmpty_iff]
    constructor
    · exact And.right
    · intro hnothing
      have hresolved : t.byPath? path = none := by
        rcases hnothing with hsegments | hroots
        · obtain ⟨segments⟩ := path
          cases hsegments
          exact h.byPath?_nil
        · exact h.byPath?_of_roots_eq_nil hroots path
      exact ⟨hresolved, hnothing⟩
  rw [← hnone]
  unfold describeAt
  cases (t.byPath? path <|> t.closest? path.segments) with
  | none => simp [eq_comm]
  | some id => simp

/-! ## A file -/

section Access

variable {σ : Type}

theorem runOn_describe (files : FileAccess (StateM σ)) (depth : Nat) (disk : σ) (name : String) (path : Path) :
    Command.runOn files depth disk (.describe name path) =
      match files.readOn disk name with
      | (.error cause, disk) => (.error (.cannotRead name cause), disk)
      | (.ok source, disk) =>
        match Scheme.parse depth 0 source with
        | .error cause => (.error (.cannotParse name cause), disk)
        | .ok t => (describeAt t path, disk) := by
  have hread : (readFile files name).run.run disk =
      ((files.readOn disk name).1.mapError (.cannotRead name), (files.readOn disk name).2) := rfl
  rw [Command.runOn, Command.run, run_bind, parseFile, run_bind, hread]
  rcases files.readOn disk name with ⟨cause | source, disk⟩
  · rfl
  · simp only [Except.mapError]
    cases Scheme.parse depth 0 source <;> rfl

/-- Why the command that describes a node of a file fails: there is no text, or the text has no tree, or the path or the
tree is empty. -/
inductive DescribeFails (files : FileAccess (StateM σ)) (depth : Nat) (disk : σ) (name : String) (path : Path) :
    CommandError → Prop
  | unread {cause : FileError} (hread : (files.readOn disk name).1 = .error cause) :
    DescribeFails files depth disk name path (.cannotRead name cause)
  | unparsed {source : String} {cause : ParseError} (hread : (files.readOn disk name).1 = .ok source)
    (hparse : Scheme.parse depth 0 source = .error cause) :
    DescribeFails files depth disk name path (.cannotParse name cause)
  | nothing {source : String} {t : Tree} (hread : (files.readOn disk name).1 = .ok source)
    (hparse : Scheme.parse depth 0 source = .ok t) (hempty : path.segments = [] ∨ t.isEmpty = true) :
    DescribeFails files depth disk name path (.nothingAtPath path)

theorem runOn_describe_eq_error_iff (files : FileAccess (StateM σ)) (depth : Nat) (disk : σ) (name : String)
    (path : Path) (e : CommandError) :
    (Command.runOn files depth disk (.describe name path)).1 = .error e ↔
      DescribeFails files depth disk name path e := by
  rw [runOn_describe]
  rcases hread : files.readOn disk name with ⟨cause | source, disk'⟩
  · have hread' := congrArg Prod.fst hread
    constructor
    · intro h
      cases h
      exact .unread hread'
    · rintro (h | ⟨h, -⟩ | ⟨h, -, -⟩) <;> cases hread'.symm.trans h
      rfl
  · have hread' := congrArg Prod.fst hread
    simp only
    cases hparse : Scheme.parse depth 0 source with
    | error cause =>
      constructor
      · intro h
        cases h
        exact .unparsed hread' hparse
      · rintro (h | ⟨h, h'⟩ | ⟨h, h', -⟩) <;> cases hread'.symm.trans h <;> cases hparse.symm.trans h'
        rfl
    | ok t =>
      obtain ⟨drafts, hspelled⟩ := Scheme.spelled_parse hparse
      have hdescribe := describeAt_eq_error_iff hspelled.built path e
      simp only [hdescribe]
      constructor
      · rintro ⟨hempty, rfl⟩
        exact .nothing hread' hparse hempty
      · rintro (h | ⟨h, h'⟩ | ⟨h, h', hempty⟩) <;> cases hread'.symm.trans h <;> cases hparse.symm.trans h'
        exact ⟨hempty, rfl⟩

end Access

/-- In every tree that a builder finishes, a path that leads nowhere is snapped to a node, if there is one to begin
with; so the command fails on a text that parses only for the empty path or the empty tree. -/
theorem snapped_and_described {t : Tree} (h : t.Made) (segments : List Nat) :
    t.Snapped segments ∧
      (∀ e, describeAt t ⟨segments⟩ = .error e ↔
        (segments = [] ∨ t.isEmpty = true) ∧ e = .nothingAtPath ⟨segments⟩) ∧
      ∀ {σ : Type} (files : FileAccess (StateM σ)) (depth : Nat) (disk : σ) (name : String) (e : CommandError),
        (Command.runOn files depth disk (.describe name ⟨segments⟩)).1 = .error e ↔
          DescribeFails files depth disk name ⟨segments⟩ e := by
  refine ⟨h.built.snapped segments, describeAt_eq_error_iff h.built ⟨segments⟩, ?_⟩
  intro σ files depth disk name e
  exact runOn_describe_eq_error_iff files depth disk name ⟨segments⟩ e

/-- An application has no tenth part: the path is snapped to its last part, the second, and something is described. -/
theorem snapped_and_described_ofCall :
    (Tree.ofCall 0 "a").Snapped [0, 9] ∧ (Tree.ofCall 0 "a").closest? [0, 9] = some 1 ∧
      ∃ text, describeAt (Tree.ofCall 0 "a") ⟨[0, 9]⟩ = .ok text := by
  have hbuilt := (Tree.made_ofCall 0 "a").built
  have hcall : (Tree.ofCall 0 "a").byPath? ⟨[0]⟩ = some 2 := by
    rw [hbuilt.byPath?_eq_follow?]
    decide +kernel
  have hlost : (Tree.ofCall 0 "a").byPath? ⟨[0] ++ [9]⟩ = none := by
    rw [hbuilt.byPath?_eq_follow?]
    decide +kernel
  have hclosest := (hbuilt.snaps_edge (.inr ⟨2, hcall⟩) hlost).closestUp?_eq
  rw [hcall] at hclosest
  obtain ⟨hsnapped, hfails, -⟩ := snapped_and_described (Tree.made_ofCall 0 "a") [0, 9]
  refine ⟨hsnapped, hclosest.trans (by decide +kernel), ?_⟩
  cases hdescribe : describeAt (Tree.ofCall 0 "a") ⟨[0, 9]⟩ with
  | ok text => exact ⟨text, rfl⟩
  | error e =>
    rcases ((hfails e).mp hdescribe).1 with hsegments | hempty
    · cases hsegments
    · cases hbuilt.isEmpty_iff.mp hempty

end CommandLine

end StructuralEditor
