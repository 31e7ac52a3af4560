import Mathlib.Logic.Function.Basic
import StructuralEditor.CommandLine.Command
import StructuralEditor.Proofs.Buffer.Batch
import StructuralEditor.Proofs.Session.Trials

/-!
# Edits of files

* `Edit.Turns`, `Buffer.apply_singleton_iff` : what a single edit makes of a text;
* `CommandLine.Revises`, `CommandLine.revises_of_editText`, `CommandLine.editText_of_revises` : an edit is carried out
  if the text parses before and after;
* `CommandLine.FileAccess.Whole` : files are read and written as a whole or not at all;
  `CommandLine.Files.access_whole` : so are those of a directory;
* `CommandLine.EditsFile`, `CommandLine.run_edit_editsFile` : what the command leaves in the files.
-/

namespace StructuralEditor

/-! ## One edit of a text -/

/-- The second text is the first with what stands between the ends of the edit replaced by its text. -/
def Edit.Turns (e : Edit) (source edited : String) : Prop :=
  ∃ head removed tail, source.toList = head ++ removed ++ tail ∧ Position.zero.after head = e.start ∧
    Position.zero.after (head ++ removed) = e.stop ∧ edited = String.ofList (head ++ e.text.toList ++ tail)

namespace Buffer

variable {b : Buffer} {e : Edit}

theorem Located.Fits.turns {l : Located} (h : l.Fits b) :
    l.edit.Turns b.text (String.ofList (l.perform b.chars).1) := by
  refine ⟨b.chars.take l.start, (b.chars.take l.stop).drop l.start, b.chars.drop l.stop, ?_, ?_, ?_, rfl⟩
  · rw [← take_eq_append _ h.start_le_stop, List.take_append_drop]
    rfl
  · exact (index?_eq_ok_iff.mp h.start).2
  · rw [← take_eq_append _ h.start_le_stop]
    exact (index?_eq_ok_iff.mp h.stop).2

theorem plan_singleton_iff {ls : List Located} : b.plan [e] = .ok ls ↔ ∃ l, ls = [l] ∧ l.edit = e ∧ l.Fits b := by
  rw [plan, List.mapM_cons, List.mapM_nil]
  simp only [ok_bind_iff, locate_eq_ok_iff]
  constructor
  · rintro ⟨located, ⟨l, hl, ms, hms, hlocated⟩, -, -, hls⟩
    cases hms
    cases hlocated
    rw [List.mergeSort_singleton] at hls
    exact ⟨l, (ok_pure_iff.mp hls).symm, hl⟩
  · rintro ⟨l, rfl, hl⟩
    refine ⟨[l], ⟨l, hl, [], rfl, rfl⟩, (), ?_, ?_⟩
    · rw [List.mergeSort_singleton]
      rfl
    · rw [List.mergeSort_singleton]
      rfl

theorem exists_fits_of_turns {edited : String} (h : e.Turns b.text edited) :
    ∃ l : Located, l.edit = e ∧ l.Fits b ∧ String.ofList (l.perform b.chars).1 = edited := by
  obtain ⟨head, removed, tail, hsource, hstart, hstop, rfl⟩ := h
  have hchars : b.chars = head ++ removed ++ tail := hsource
  refine ⟨⟨e, head.length, (head ++ removed).length⟩, rfl, ⟨?_, ?_, ?_⟩, ?_⟩
  · rw [← hstart, ← hstop, Position.after_append]
    exact Position.le_after _ removed
  · rw [← hstart]
    exact index?_after (hchars.trans (List.append_assoc head removed tail))
  · rw [← hstop]
    exact index?_after hchars
  · simp only [Located.perform, hchars]
    rw [List.append_assoc head removed tail, List.take_left, ← List.append_assoc, List.drop_left]

/-- A single edit is carried out if its ends are positions of the text in order. -/
theorem apply_singleton_iff {edited : Buffer} :
    (∃ changes, b.apply [e] = .ok (edited, changes)) ↔ e.Turns b.text edited.text := by
  have happly : ∀ {l : Located}, b.plan [e] = .ok [l] →
      b.apply [e] = .ok (⟨String.ofList (l.perform b.chars).1⟩, [(l.perform b.chars).2]) := by
    intro l hplan
    rw [apply, hplan]
    rfl
  constructor
  · rintro ⟨changes, h⟩
    obtain ⟨ls, hplan, -⟩ := ok_bind_iff.mp h
    obtain ⟨l, rfl, rfl, hfits⟩ := plan_singleton_iff.mp hplan
    cases (happly hplan).symm.trans h
    exact hfits.turns
  · intro h
    obtain ⟨l, hl, hfits, hedited⟩ := exists_fits_of_turns h
    obtain ⟨text⟩ := edited
    cases hedited
    exact ⟨_, happly (plan_singleton_iff.mpr ⟨l, rfl, hl, hfits⟩)⟩

end Buffer

namespace CommandLine

/-! ## Texts that parse before and after -/

variable {depth : Nat} {e : Edit} {source edited : String}

/-- The edit makes the second text of the first, and both parse. -/
structure Revises (depth : Nat) (e : Edit) (source edited : String) : Prop where
  before : ∃ t, Scheme.parse depth 0 source = .ok t
  turns : e.Turns source edited
  after : ∃ t, Scheme.parse depth 0 edited = .ok t

theorem openOn_of_parse {t : Tree} (h : Scheme.parse depth 0 source = .ok t) :
    Session.openOn (Scheme.parse depth) (⟨source⟩ : Buffer) =
      .ok ⟨Scheme.parse depth, ⟨source⟩, t, none, [], t.table.size⟩ := by
  unfold Session.openOn
  rw [show TextBuffer.text (⟨source⟩ : Buffer) = source from rfl, h]

/-- The session gives the text that was parsed: what is live after the edit. -/
theorem revises_of_editText {result : Edited} (h : editText depth source e = .ok result) :
    Revises depth e source result.text := by
  cases hparse : Scheme.parse depth 0 source with
  | error cause =>
    have hopen : Session.openOn (Scheme.parse depth) (⟨source⟩ : Buffer) = .error (.parse cause) := by
      unfold Session.openOn
      rw [show TextBuffer.text (⟨source⟩ : Buffer) = source from rfl, hparse]
    rw [editText, hopen] at h
    cases h
  | ok t =>
    rw [editText, openOn_of_parse hparse] at h
    simp only at h
    split at h
    · cases h
    · next session committed hcommit =>
      cases h
      obtain ⟨parsed, happly, hparsed⟩ := Session.accepted_of_commit hcommit
      obtain ⟨u, hu, -⟩ := Scheme.parse_alike hparsed 0
      exact ⟨⟨t, hparse⟩, Buffer.apply_singleton_iff.mp ⟨_, happly⟩, u, hu⟩

theorem editText_of_revises (h : Revises depth e source edited) :
    ∃ focus, editText depth source e = .ok ⟨edited, focus⟩ := by
  obtain ⟨t, hparse⟩ := h.before
  obtain ⟨u, hu⟩ := h.after
  have hturns : e.Turns (⟨source⟩ : Buffer).text (⟨edited⟩ : Buffer).text := h.turns
  obtain ⟨changes, happly⟩ := Buffer.apply_singleton_iff.mpr hturns
  obtain ⟨parsed, hparsed, -⟩ := Scheme.parse_alike hu t.table.size
  obtain ⟨s', committed, hcommit, htext, -⟩ := Session.exists_published
    (s := ⟨Scheme.parse depth, ⟨source⟩, t, none, [], t.table.size⟩) happly hparsed fun _ => .fallback
  rw [editText, openOn_of_parse hparse]
  simp only [hcommit]
  exact ⟨_, by rw [htext]⟩

/-! ## Files -/

section Access

variable {σ κ : Type} [DecidableEq κ] {files : FileAccess (StateM σ)} {fileOf : String → κ}
  {text? : σ → κ → Option String}

/-- What reading a file answers, and what is left on the disk. -/
def FileAccess.readOn (files : FileAccess (StateM σ)) (disk : σ) (name : String) : Except FileError String × σ :=
  (files.read name).run disk

/-- What writing a file answers, and what is left on the disk. -/
def FileAccess.writeOn (files : FileAccess (StateM σ)) (disk : σ) (name text : String) : Except FileError Unit × σ :=
  (files.write name text).run disk

/-- What a command prints or fails with, and what is left on the disk. -/
def Command.runOn (files : FileAccess (StateM σ)) (depth : Nat) (disk : σ) (command : Command) :
    Except CommandError String × σ :=
  (command.run files depth).run.run disk

/-- A disk holds the texts of files, and names stand for files. Reading gives the text of a file or fails, and changes
nothing; writing gives a file its text and leaves all others alone, or fails and changes nothing. -/
structure FileAccess.Whole (files : FileAccess (StateM σ)) (fileOf : String → κ) (text? : σ → κ → Option String) :
    Prop where
  read_keeps : ∀ disk name, (files.readOn disk name).2 = disk
  read_ok : ∀ disk name text, (files.readOn disk name).1 = .ok text → text? disk (fileOf name) = some text
  write_error : ∀ disk name text e, (files.writeOn disk name text).1 = .error e →
    (files.writeOn disk name text).2 = disk
  write_ok : ∀ disk name text, (files.writeOn disk name text).1 = .ok () →
    text? (files.writeOn disk name text).2 = Function.update (text? disk) (fileOf name) (some text)

theorem run_bind {ε α β : Type} (x : ExceptT ε (StateM σ) α) (f : α → ExceptT ε (StateM σ) β) (disk : σ) :
    (x >>= f).run.run disk =
      match (x.run.run disk : Except ε α × σ) with
      | (.ok a, disk) => (f a).run.run disk
      | (.error e, disk) => (.error e, disk) := by
  show (match (x.run.run disk : Except ε α × σ) with
    | (answer, disk) => (ExceptT.bindCont f answer).run disk) = _
  rcases (x.run.run disk : Except ε α × σ) with ⟨e | a, disk⟩ <;> rfl

theorem runOn_edit (files : FileAccess (StateM σ)) (depth : Nat) (disk : σ) (name : String) (e : Edit) (write : Bool) :
    Command.runOn files depth disk (.edit name e.start e.stop e.text write) =
      match files.readOn disk name with
      | (.error cause, disk) => (.error (.cannotRead name cause), disk)
      | (.ok source, disk) =>
        match editText depth source e with
        | .error cause => (.error cause, disk)
        | .ok edited =>
          if write then
            match files.writeOn disk name edited.text with
            | (.error cause, disk) => (.error (.cannotWrite name cause), disk)
            | (.ok (), disk) => (.ok ("wrote " ++ name ++ "\n" ++ edited.focusLine), disk)
          else (.ok edited.text, disk) := by
  have hread : (readFile files name).run.run disk =
      ((files.readOn disk name).1.mapError (.cannotRead name), (files.readOn disk name).2) := rfl
  have hwrite : ∀ disk text, (writeFile files name text).run.run disk =
      ((files.writeOn disk name text).1.mapError (.cannotWrite name), (files.writeOn disk name text).2) :=
    fun _ _ => rfl
  rw [Command.runOn, Command.run, run_bind, hread]
  rcases files.readOn disk name with ⟨cause | source, disk⟩
  · rfl
  · simp only [Except.mapError]
    rw [run_bind]
    rcases hedit : editText depth source e with cause | edited
    · rfl
    · cases write with
      | false => rfl
      | true =>
        show (writeFile files name edited.text >>= fun _ => pure _).run.run disk = _
        rw [run_bind, hwrite]
        simp only [if_true]
        rcases files.writeOn disk name edited.text with ⟨cause | _, disk⟩ <;> rfl

/-- The command edits a file: it reads a text that parses, of which the edit makes another that parses too. -/
def CanEdit (files : FileAccess (StateM σ)) (depth : Nat) (disk : σ) (name : String) (e : Edit)
    (source edited : String) : Prop :=
  (files.readOn disk name).1 = .ok source ∧ Revises depth e source edited

theorem CanEdit.unique {disk : σ} {name source source' edited edited' : String}
    (h : CanEdit files depth disk name e source edited) (h' : CanEdit files depth disk name e source' edited') :
    source' = source ∧ edited' = edited := by
  obtain rfl := Except.ok.inj (h'.1.symm.trans h.1)
  obtain ⟨focus, hedit⟩ := editText_of_revises h.2
  obtain ⟨focus', hedit'⟩ := editText_of_revises h'.2
  cases hedit.symm.trans hedit'
  exact ⟨rfl, rfl⟩

/-- How the command ends. It fails where there is nothing to write or the file cannot be written; otherwise it prints
the edited text, or writes it. -/
theorem runOn_edit_cases (h : files.Whole fileOf text?) (depth : Nat) (disk : σ) (name : String) (e : Edit)
    (write : Bool) :
    (∃ cause, Command.runOn files depth disk (.edit name e.start e.stop e.text write) = (.error cause, disk) ∧
      ∀ source edited, CanEdit files depth disk name e source edited →
        write = true ∧ (files.writeOn disk name edited).1 ≠ .ok ()) ∨
    ∃ source edited, CanEdit files depth disk name e source edited ∧
      (write = false ∧
          Command.runOn files depth disk (.edit name e.start e.stop e.text write) = (.ok edited, disk) ∨
        write = true ∧ (files.writeOn disk name edited).1 = .ok () ∧ ∃ message,
          Command.runOn files depth disk (.edit name e.start e.stop e.text write) =
            (.ok message, (files.writeOn disk name edited).2)) := by
  rw [runOn_edit]
  rcases hread : files.readOn disk name with ⟨cause | source, disk'⟩
  · obtain rfl : disk' = disk := (congrArg Prod.snd hread).symm.trans (h.read_keeps disk name)
    refine .inl ⟨_, rfl, ?_⟩
    rintro source edited ⟨hsource, -⟩
    cases (congrArg Prod.fst hread).symm.trans hsource
  · obtain rfl : disk' = disk := (congrArg Prod.snd hread).symm.trans (h.read_keeps disk name)
    dsimp only
    rcases hedit : editText depth source e with cause | ⟨edited, focus⟩
    · refine .inl ⟨_, rfl, ?_⟩
      rintro source' edited ⟨hsource, hrevises⟩
      cases (congrArg Prod.fst hread).symm.trans hsource
      obtain ⟨focus, hedit'⟩ := editText_of_revises hrevises
      cases hedit.symm.trans hedit'
    · have hcan : CanEdit files depth disk' name e source edited :=
        ⟨congrArg Prod.fst hread, revises_of_editText hedit⟩
      cases write with
      | false => exact .inr ⟨source, edited, hcan, .inl ⟨rfl, rfl⟩⟩
      | true =>
        dsimp only
        rw [if_pos rfl]
        rcases hwrite : files.writeOn disk' name edited with ⟨cause | _, disk''⟩
        · obtain rfl : disk'' = disk' :=
            (congrArg Prod.snd hwrite).symm.trans (h.write_error _ _ _ _ (congrArg Prod.fst hwrite))
          refine .inl ⟨_, rfl, fun source' edited' hcan' => ⟨rfl, ?_⟩⟩
          rw [(hcan.unique hcan').2, hwrite]
          simp
        · refine .inr ⟨source, edited, hcan, .inr ⟨rfl, ?_, ?_⟩⟩
          · rw [hwrite]
          · rw [hwrite]
            exact ⟨_, rfl⟩

/-- What the command that edits a file leaves: the disk changes only if the edited text is to be written and the texts
before and after parse, and then only that file, which gets the edited text. On failure nothing changes. -/
structure EditsFile (files : FileAccess (StateM σ)) (fileOf : String → κ) (text? : σ → κ → Option String) (depth : Nat)
    (name : String) (e : Edit) (write : Bool) (disk : σ) (outcome : Except CommandError String) (disk' : σ) : Prop where
  changed : disk' ≠ disk → write = true ∧ ∃ source edited, text? disk (fileOf name) = some source ∧
    Revises depth e source edited ∧ text? disk' = Function.update (text? disk) (fileOf name) (some edited)
  failed : ∀ cause, outcome = .error cause → disk' = disk
  refused : (¬ ∃ source edited, CanEdit files depth disk name e source edited) → ∃ cause, outcome = .error cause
  printed : ∀ source edited, CanEdit files depth disk name e source edited → write = false →
    outcome = .ok edited ∧ disk' = disk
  written : ∀ source edited, CanEdit files depth disk name e source edited → write = true →
    (files.writeOn disk name edited).1 = .ok () →
      (∃ message, outcome = .ok message) ∧ text? disk' = Function.update (text? disk) (fileOf name) (some edited)

/-- An edit of a file never leaves a text that does not parse. -/
theorem run_edit_editsFile (h : files.Whole fileOf text?) (depth : Nat) (disk : σ) (name : String) (e : Edit)
    (write : Bool) :
    EditsFile files fileOf text? depth name e write disk
      (Command.runOn files depth disk (.edit name e.start e.stop e.text write)).1
      (Command.runOn files depth disk (.edit name e.start e.stop e.text write)).2 := by
  rcases runOn_edit_cases h depth disk name e write with
    ⟨cause, hrun, hunwritable⟩ | ⟨source, edited, hcan, ⟨rfl, hrun⟩ | ⟨rfl, hwrite, message, hrun⟩⟩
  · rw [hrun]
    exact {
      changed := fun hne => absurd rfl hne
      failed := fun _ _ => rfl
      refused := fun _ => ⟨cause, rfl⟩
      printed := fun source edited hcan hprint => by
        rw [(hunwritable source edited hcan).1] at hprint
        cases hprint
      written := fun source edited hcan _ hwrite => absurd hwrite (hunwritable source edited hcan).2 }
  · rw [hrun]
    exact {
      changed := fun hne => absurd rfl hne
      failed := fun _ hfailed => by cases hfailed
      refused := fun hnone => absurd ⟨source, edited, hcan⟩ hnone
      printed := fun _ _ hcan' _ => by
        rw [(hcan.unique hcan').2]
        exact ⟨rfl, rfl⟩
      written := fun _ _ _ hwritten => by cases hwritten }
  · have htext := h.write_ok disk name edited hwrite
    rw [hrun]
    exact {
      changed := fun _ => ⟨rfl, source, edited, h.read_ok disk name source hcan.1, hcan.2, htext⟩
      failed := fun _ hfailed => by cases hfailed
      refused := fun hnone => absurd ⟨source, edited, hcan⟩ hnone
      printed := fun _ _ _ hprint => by cases hprint
      written := fun _ _ hcan' _ _ => by
        rw [(hcan.unique hcan').2]
        exact ⟨⟨message, rfl⟩, htext⟩ }

end Access

/-! ## Files in a directory -/

namespace Files

def text? (files : Files) (full : List String) : Option String :=
  (files.get? full).bind fun bytes => (decodeText bytes).toOption

/-- A name that leads to a file is resolved to its full name without asking for the files on the way. -/
theorem fullName_of_locateFrom {files : Files} {directory names full : List String}
    (h : files.locateFrom directory names = .ok full) :
    (names.foldl enter directory).reverse = full ∧ (files.get? full).isSome := by
  fun_induction locateFrom files directory names with
  | case1 => cases h
  | case2 directory name rest hblank ih =>
    rw [List.foldl_cons, enter, if_pos hblank]
    exact ih h
  | case3 => cases h
  | case4 rest first above hplain ih =>
    rw [List.foldl_cons, enter, if_neg hplain, if_pos rfl]
    exact ih h
  | case5 directory name rest hplain hdown full' hfound hlast =>
    rw [List.foldl_cons, enter, if_neg hplain, if_neg hdown, List.isEmpty_iff.mp hlast, ← Except.ok.inj h]
    exact ⟨rfl, hfound⟩
  | case6 => cases h
  | case7 directory name rest hplain hdown full' _ _ ih =>
    rw [List.foldl_cons, enter, if_neg hplain, if_neg hdown]
    exact ih h
  | case8 => cases h

theorem fullName_of_locate {files : Files} {name : String} {full : List String} (h : files.locate name = .ok full) :
    fullName name = full ∧ ∃ bytes, files.get? full = some bytes := by
  unfold locate at h
  split at h
  · cases h
  · obtain ⟨hfull, hfound⟩ := fullName_of_locateFrom h
    exact ⟨hfull, Option.isSome_iff_exists.mp hfound⟩

theorem get?_replace (files : Files) (full : List String) (bytes : ByteArray) (other : List String) :
    (files.replace full bytes).get? other =
      if other = full then (files.get? other).map fun _ => bytes else files.get? other := by
  obtain ⟨entries⟩ := files
  simp only [replace, get?]
  induction entries with
  | nil => simp
  | cons entry entries ih =>
    obtain ⟨first, old⟩ := entry
    rw [List.map_cons]
    by_cases hfull : first = full
    · by_cases hother : other = first
      · simp [hfull, hother]
      · rw [if_pos hfull, List.lookup_cons, List.lookup_cons, beq_eq_false_iff_ne.mpr hother]
        exact ih
    · by_cases hother : other = first
      · rw [if_neg hfull, hother, if_neg hfull]
        simp
      · rw [if_neg hfull, List.lookup_cons, List.lookup_cons, beq_eq_false_iff_ne.mpr hother]
        exact ih

theorem decodeText_toUTF8 (text : String) : decodeText text.toUTF8 = .ok text := by
  rw [decodeText, String.fromUTF8?, String.toUTF8, dif_pos text.isValidUTF8]
  rfl

theorem writeOn_access (files : Files) (name text : String) :
    access.writeOn files name text =
      match files.write name text with
      | .ok edited => (.ok (), edited)
      | .error e => (.error e, files) := by
  show ((match files.write name text with
    | .ok edited => do
      set edited
      return .ok ()
    | .error e => return .error e : StateM Files (Except FileError Unit)).run files) = _
  cases files.write name text <;> rfl

theorem access_whole : access.Whole fullName text? where
  read_keeps := fun _ _ => rfl
  read_ok := by
    intro files name text h
    obtain ⟨full, hlocate, hdecode⟩ := ok_bind_iff.mp (show files.read name = .ok text from h)
    obtain ⟨rfl, bytes, hbytes⟩ := fullName_of_locate hlocate
    rw [hbytes, Option.getD_some] at hdecode
    rw [text?, hbytes, Option.bind_some, hdecode]
    rfl
  write_error := by
    intro files name text e h
    rw [writeOn_access] at h ⊢
    cases hwrite : files.write name text with
    | error cause => rfl
    | ok edited =>
      rw [hwrite] at h
      cases h
  write_ok := by
    intro files name text h
    rw [writeOn_access] at h ⊢
    cases hwrite : files.write name text with
    | error cause =>
      rw [hwrite] at h
      cases h
    | ok edited =>
      obtain ⟨full, hlocate, hreplace⟩ := ok_bind_iff.mp hwrite
      obtain ⟨rfl, bytes, hbytes⟩ := fullName_of_locate hlocate
      cases hreplace
      funext other
      rw [text?, get?_replace, Function.update_apply]
      split
      · next hother =>
        rw [hother, hbytes, Option.map_some, Option.bind_some, decodeText_toUTF8]
        rfl
      · rfl

end Files

/-- A number in a file is replaced by another, and a file beside it, which does not parse, stays as it is. -/
theorem run_edit_editsFile_number :
    let files := Files.ofList [("a", "(+ 1 2)".toUTF8), ("b", "(".toUTF8)]
    let after := Command.runOn Files.access defaultDepth files (.edit "a" ⟨0, 3⟩ ⟨0, 4⟩ "10" true)
    Revises defaultDepth ⟨⟨0, 3⟩, ⟨0, 4⟩, "10"⟩ "(+ 1 2)" "(+ 10 2)" ∧ (∃ message, after.1 = .ok message) ∧
      after.2.text? ["a"] = some "(+ 10 2)" ∧ after.2.text? ["b"] = some "(" := by
  intro files after
  have hrevises : Revises defaultDepth ⟨⟨0, 3⟩, ⟨0, 4⟩, "10"⟩ "(+ 1 2)" "(+ 10 2)" := by
    refine ⟨isOk_iff.mp ?_, ⟨['(', '+', ' '], ['1'], [' ', '2', ')'], ?_⟩, isOk_iff.mp ?_⟩ <;> decide +kernel
  have hlocate : files.locate "a" = .ok ["a"] := by decide +kernel
  have hread : (Files.access.readOn files "a").1 = .ok "(+ 1 2)" :=
    ok_bind_iff.mpr ⟨["a"], hlocate, Files.decodeText_toUTF8 _⟩
  have hwrite : (Files.access.writeOn files "a" "(+ 10 2)").1 = .ok () := by
    have hfiles : files.write "a" "(+ 10 2)" = .ok (files.replace ["a"] "(+ 10 2)".toUTF8) :=
      ok_bind_iff.mpr ⟨["a"], hlocate, rfl⟩
    rw [Files.writeOn_access, hfiles]
  have hedits := run_edit_editsFile Files.access_whole defaultDepth files "a" ⟨⟨0, 3⟩, ⟨0, 4⟩, "10"⟩ true
  obtain ⟨hmessage, htext⟩ := hedits.written _ _ ⟨hread, hrevises⟩ rfl hwrite
  have hnames : Files.fullName "a" = ["a"] := (Files.fullName_of_locate hlocate).1
  rw [hnames] at htext
  refine ⟨hrevises, hmessage, ?_, ?_⟩
  · rw [htext, Function.update_self]
  · rw [htext, Function.update_of_ne (by decide), Files.text?, show files.get? ["b"] = some "(".toUTF8 from rfl,
      Option.bind_some, Files.decodeText_toUTF8]
    rfl

end CommandLine

end StructuralEditor
