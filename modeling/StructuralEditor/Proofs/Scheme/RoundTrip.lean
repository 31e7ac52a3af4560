import StructuralEditor.Proofs.Scheme.Planting
import StructuralEditor.Proofs.Scheme.Printing

/-!
# Programs and their canonical texts

* `joinedLines`, `Noted` : the lines of the comments that wait at the end of a text;
* `contents_plantProgram` : what a planted program says, one content for each root;
* `Programmed`, `programmed_of_parse` : the contents of a parsed tree are those of data and of the comment after them;
* `exists_parse_of_programmed` : the canonical text of such contents is parsed into them;
* `parse_text_of_parse` : so the canonical text of a tree stands for the tree.
-/

namespace StructuralEditor.Scheme

/-! ## Comments at the end -/

def joinedLines : List String → List String
  | [] => []
  | first :: others => ["\n".intercalate (first :: others)]

theorem intercalate_joinedLines (texts lines : List String) :
    "\n".intercalate (texts ++ joinedLines lines) = "\n".intercalate (texts ++ lines) := by
  cases lines with
  | nil => rfl
  | cons first others => exact intercalate_append_intercalate "\n" texts (List.cons_ne_nil first others)

/-- The comment that waits for a datum has these lines. -/
def Noted (lines : List String) (pending : Option Comment) : Prop := pending.toList.map (·.text) = joinedLines lines

namespace CommentPlan

open Item

theorem noted_note {lines : List String} {progress : Progress} (h : Noted lines progress.pending) (comment : Comment) :
    Noted (lines ++ [comment.text]) (progress.note comment).pending := by
  obtain ⟨plan, pending, last⟩ := progress
  cases lines with
  | nil =>
    cases pending with
    | none =>
      show [comment.text] = ["\n".intercalate [comment.text]]
      rw [String.intercalate_singleton]
    | some earlier => cases h
  | cons first others =>
    cases pending with
    | none => cases h
    | some earlier =>
      obtain ⟨htext, -⟩ := List.cons.inj h
      show [earlier.text ++ "\n" ++ comment.text] = ["\n".intercalate (first :: others ++ [comment.text])]
      rw [String.intercalate_append_of_ne_nil (List.cons_ne_nil _ _) (List.cons_ne_nil _ _),
        String.intercalate_singleton, ← htext]

theorem noted_followItem {item : Item} {datum : Datum} (h : item.datum? = some datum) (progress : Progress) :
    Noted [] (followItem progress item).pending := by
  cases item with
  | atom text span | string text span | list items span =>
    rw [followItem]
    rfl
  | comment text span => cases h

theorem follow_append (progress : Progress) (items more : List Item) :
    follow progress (items ++ more) = follow (follow progress items) more := by
  induction items generalizing progress with
  | nil => rw [List.nil_append, follow]
  | cons item items ih => rw [List.cons_append, follow, ih, follow]

theorem noted_follow_of_data {items : List Item} {found : List Datum} (h : items.map datum? = found.map some)
    {progress : Progress} (hpending : Noted [] progress.pending) : Noted [] (follow progress items).pending := by
  induction items generalizing found progress with
  | nil =>
    rw [follow]
    exact hpending
  | cons item items ih =>
    obtain ⟨datum, found, rfl, hdatum, hfound⟩ := List.map_eq_cons_iff.mp h.symm
    rw [follow]
    exact ih hfound.symm (noted_followItem hdatum.symm progress)

theorem exists_noted_follow {P : String → Prop} {items : List Item}
    (hitems : ∀ {text span}, Item.comment text span ∈ items → P text) {lines : List String}
    (hlines : ∀ line ∈ lines, P line) {progress : Progress} (h : Noted lines progress.pending) :
    ∃ lines', (∀ line ∈ lines', P line) ∧ Noted lines' (follow progress items).pending := by
  induction items generalizing lines progress with
  | nil =>
    rw [follow]
    exact ⟨lines, hlines, h⟩
  | cons item items ih =>
    have hrest : ∀ {text span}, Item.comment text span ∈ items → P text :=
      fun hmem => hitems (List.mem_cons_of_mem _ hmem)
    rw [follow]
    cases item with
    | atom text span | string text span | list parts span => exact ih hrest (by simp) (noted_followItem rfl progress)
    | comment text span =>
      rw [followItem]
      refine ih hrest (List.forall_mem_append.mpr ⟨hlines, ?_⟩) (noted_note h ⟨span, text⟩)
      exact List.forall_mem_singleton.mpr (hitems List.mem_cons_self)

end CommentPlan

theorem noted_start : Noted [] (CommentPlan.Progress.mk .empty none none).pending := rfl

/-- Tokens of comments are read as comments, which wait for a datum line by line. -/
theorem nested_comments {n : Nat} {lines : List String} {tokens : List Token}
    (h : tokens.map (·.lexeme) = lines.map Lexeme.comment) :
    ∃ items, Item.Nested n tokens items ∧ Item.data items = [] ∧
      ∀ {done progress}, Noted done progress.pending →
        Noted (done ++ lines) (CommentPlan.follow progress items).pending := by
  induction lines generalizing tokens with
  | nil =>
    obtain rfl := List.map_eq_nil_iff.mp h
    refine ⟨[], .nil, rfl, fun {done progress} hdone => ?_⟩
    rw [List.append_nil, CommentPlan.follow]
    exact hdone
  | cons line lines ih =>
    obtain ⟨⟨_, span⟩, tokens, rfl, rfl, htokens⟩ := List.map_eq_cons_iff.mp h
    obtain ⟨items, hnested, hdata, hnoted⟩ := ih htokens
    refine ⟨.comment line span :: items, .comment line span hnested, hdata, fun {done progress} hdone => ?_⟩
    rw [CommentPlan.follow, CommentPlan.followItem, ← List.singleton_append, ← List.append_assoc]
    exact hnoted (CommentPlan.noted_note hdone ⟨span, line⟩)

theorem written_comments {lines : List String} (h : ∀ line ∈ lines, (Lexeme.comment line).Valid) :
    Written (lines.map Lexeme.comment) (['\n'].intercalate (lines.map String.toList)) := by
  induction lines with
  | nil => exact .nil
  | cons line lines ih =>
    obtain ⟨hline, hlines⟩ := List.forall_mem_cons.mp h
    cases lines with
    | nil =>
      rw [List.map_singleton, List.map_singleton, List.intercalate_singleton, ← List.append_nil line.toList]
      exact .lexeme (.comment line) hline (by simp [Lexeme.Ends]) .nil
    | cons next others =>
      have hends : (Lexeme.comment line).Ends ('\n' :: ['\n'].intercalate ((next :: others).map String.toList)) := by
        simp [Lexeme.Ends]
      simp only [List.map_cons, List.intercalate_cons_cons, List.append_assoc]
      exact .lexeme (.comment line) hline hends (.blank '\n' (by decide) (ih hlines))

/-! ## The contents of a tree -/

/-- Data spelled by valid tokens fit within the bound on their brackets. -/
theorem fits_of_nested {n : Nat} {tokens : List Token} {items : List Item} (h : Item.Nested n tokens items)
    (hvalid : ∀ token ∈ tokens, token.lexeme.Valid) : ∀ datum ∈ Item.data items, datum.Fits n :=
  h.forall_data (fun hatom => .atom _ hatom) (fun hstring => .string _ hstring) (fun _ _ hfound => .list _ hfound) hvalid

theorem valid_of_nested {n : Nat} {tokens : List Token} {items : List Item} (h : Item.Nested n tokens items)
    (hvalid : ∀ token ∈ tokens, token.lexeme.Valid) {text : String} {span : Span}
    (hmem : Item.comment text span ∈ items) : (Lexeme.comment text).Valid := by
  induction h with
  | nil => cases hmem
  | atom _ _ _ ih | string _ _ _ ih =>
    obtain ⟨-, hrest⟩ := List.forall_mem_cons.mp hvalid
    exact ih hrest ((List.mem_cons.mp hmem).resolve_left nofun)
  | comment _ _ _ ih =>
    obtain ⟨hhere, hrest⟩ := List.forall_mem_cons.mp hvalid
    cases hmem with
    | head => exact hhere
    | tail _ hmem => exact ih hrest hmem
  | list bracket opened closed _ _ _ ihrest =>
    obtain ⟨-, hmore⟩ := List.forall_mem_cons.mp hvalid
    obtain ⟨-, hmore⟩ := List.forall_mem_append.mp hmore
    obtain ⟨-, hrest⟩ := List.forall_mem_cons.mp hmore
    exact ihrest hrest ((List.mem_cons.mp hmem).resolve_left nofun)

theorem Spelled.contents {t : Tree} {drafts : List Draft} (h : Spelled t drafts) :
    t.contents = drafts.map Draft.content :=
  map_eq_map_of_forall₂ (h.roots.imp fun _ _ hspells => hspells.content h.ordered)

theorem Spelled.text {t : Tree} {drafts : List Draft} (h : Spelled t drafts) :
    t.text = "\n".intercalate (t.contents.map Content.text) := by
  have hroots : t.roots.map t.source = t.roots.map fun root => (t.table.content root).text := by
    refine List.map_congr_left fun root hroot => ?_
    have hlt : root < t.table.size := List.mem_range.mp (h.listed.mem_iff.mp (List.mem_append_left _ hroot))
    rw [Tree.source, Table.source, if_pos hlt]
  rw [Tree.text, Tree.contents, hroots, List.map_map]
  rfl

/-! ## There and back -/

/-- What the drafts say, and then the lines of a comment. -/
def programContents (drafts : List Draft) (lines : List String) : List Content :=
  drafts.map Draft.content ++ (joinedLines lines).map fun text => .mk (.comment text)

/-- The contents are those of data that can be written, and of a comment after them. -/
def Programmed (contents : List Content) : Prop :=
  ∃ (ps : List (Datum × Draft)) (lines : List String), (∀ p ∈ ps, Reads .expression p.1 p.2) ∧
    (∀ datum ∈ ps.map Prod.fst, datum.Fits maxNesting) ∧ (∀ line ∈ lines, (Lexeme.comment line).Valid) ∧
    contents = programContents (ps.map Prod.snd) lines

theorem contents_plantProgram {items : List Item} {lines : List String} (h : Noted lines (CommentPlan.ofItems items).2)
    (depth serial : Nat) (drafts : List Draft) :
    (plantProgram depth serial items drafts).contents = programContents drafts lines := by
  rw [(spelled_plantProgram depth serial items drafts).contents, programContents, List.map_append, ← h, List.map_map,
    List.map_map]
  congr 2
  funext comment
  exact Draft.content_mk ..

theorem programmed_of_parse {depth serial : Nat} {source : String} {t : Tree} (h : parse depth serial source = .ok t) :
    Programmed t.contents := by
  obtain ⟨tokens, items, drafts, htokens, hitems, hdrafts, rfl⟩ := parse_eq_ok_iff.mp h
  have hnested := Item.read_eq_ok_iff.mp hitems
  have hvalid := Token.valid_of_scan htokens
  obtain ⟨ps, hfst, rfl, hps⟩ := Datum.reads_of_draftAll _ hdrafts
  obtain ⟨lines, hlines, hnoted⟩ :=
    CommentPlan.exists_noted_follow (valid_of_nested hnested hvalid) (by simp) noted_start
  exact ⟨ps, lines, hps, hfst ▸ fits_of_nested hnested hvalid, hlines, contents_plantProgram hnoted ..⟩

theorem text_comment (text : String) : (Content.mk (.comment text)).text = text := by
  rw [Content.text_mk]
  rfl

/-- The characters of the canonical text: each datum and each line of the comment stands on a line of its own. -/
theorem toList_text_programContents (ps : List (Datum × Draft)) (lines : List String) :
    ("\n".intercalate ((programContents (ps.map Prod.snd) lines).map Content.text)).toList =
    ['\n'].intercalate ((ps.map fun p => Slot.expression.written p.2.content).map String.toList ++
      lines.map String.toList) := by
  have hdrafts : ((ps.map Prod.snd).map Draft.content).map Content.text =
      ps.map fun p => Slot.expression.written p.2.content := by
    rw [List.map_map, List.map_map]
    rfl
  have hcomments : ((joinedLines lines).map fun text => Content.mk (.comment text)).map Content.text =
      joinedLines lines := by
    simp only [List.map_map, Function.comp_def, text_comment, List.map_id']
  have hnewline : "\n".toList = ['\n'] := by decide
  rw [programContents, List.map_append, hdrafts, hcomments, intercalate_joinedLines, String.toList_intercalate,
    hnewline, List.map_append]

theorem exists_parse_of_programmed {contents : List Content} (h : Programmed contents) (depth serial : Nat) :
    ∃ t, parse depth serial ("\n".intercalate (contents.map Content.text)) = .ok t ∧ t.contents = contents := by
  obtain ⟨ps, lines, hps, hfits, hlines, rfl⟩ := h
  obtain ⟨lexemes, hwritten, hread⟩ := printsAll_of_reprints (fun p hp => reprints_of_reads (hps p hp)) hfits
  have hcomments := written_comments hlines
  rw [← List.append_nil (['\n'].intercalate _)] at hcomments
  have htext := hwritten (by decide) ended_nil hcomments
  rw [List.append_nil, ← toList_text_programContents] at htext
  obtain ⟨tokens, htokens, hlexemes⟩ := Token.scan_of_written htext Position.zero
  obtain ⟨tokens₁, tokens₂, rfl, h₁, h₂⟩ := List.map_eq_append_iff.mp hlexemes
  obtain ⟨items, found, hfound, ⟨drafts, hdrafts, hcontents⟩, hitems⟩ := hread h₁
  obtain ⟨comments, hnested, hdata, hnoted⟩ := nested_comments h₂
  have hall : Item.data (items ++ comments) = found := by
    rw [Item.data_eq_filterMap, List.filterMap_append, ← Item.data_eq_filterMap, ← Item.data_eq_filterMap, hdata,
      List.append_nil, Item.data_of_map_datum? hfound]
  have hprogram : draftProgram (items ++ comments) = .ok drafts := by
    rw [draftProgram, hall]
    exact Datum.draftAll_of_readsAll hdrafts
  have hpending : Noted lines (CommentPlan.ofItems (items ++ comments)).2 := by
    show Noted ([] ++ lines) (CommentPlan.follow _ (items ++ comments)).pending
    rw [CommentPlan.follow_append]
    exact hnoted (CommentPlan.noted_follow_of_data hfound noted_start)
  refine ⟨plantProgram depth serial (items ++ comments) drafts, parse_eq_ok_iff.mpr
    ⟨_, _, drafts, htokens, Item.read_eq_ok_iff.mpr (hitems hnested), hprogram, rfl⟩, ?_⟩
  rw [contents_plantProgram hpending, programContents, hcontents, programContents]

theorem text_of_parse {depth serial : Nat} {source : String} {t : Tree} (h : parse depth serial source = .ok t) :
    t.text = "\n".intercalate (t.contents.map Content.text) := by
  obtain ⟨drafts, hspelled⟩ := spelled_parse h
  exact hspelled.text

/-- The canonical text of a parsed tree can be parsed, into as many roots with the same contents, and is its own
canonical text. So trees have the same contents just if they have the same text. -/
theorem parse_text_of_parse {depth serial : Nat} {source : String} {t : Tree}
    (h : parse depth serial source = .ok t) :
    (∀ depth' serial', ∃ t', parse depth' serial' t.text = .ok t' ∧ t'.roots.length = t.roots.length ∧
      t'.contents = t.contents ∧ t'.text = t.text) ∧
    ∀ {depth' serial' source' u}, parse depth' serial' source' = .ok u →
      (t.contents = u.contents ↔ t.text = u.text) := by
  refine ⟨fun depth' serial' => ?_, fun {depth' serial' source' u} hu => ⟨fun hcontents => ?_, fun htext => ?_⟩⟩
  · obtain ⟨t', ht', hcontents⟩ := exists_parse_of_programmed (programmed_of_parse h) depth' serial'
    rw [← text_of_parse h] at ht'
    have hlength := congrArg List.length hcontents
    rw [Tree.contents, Tree.contents, List.length_map, List.length_map] at hlength
    exact ⟨t', ht', hlength, hcontents, by rw [text_of_parse ht', hcontents, text_of_parse h]⟩
  · rw [text_of_parse h, hcontents, text_of_parse hu]
  · -- Both texts are parsed into their contents, and they are one text.
    obtain ⟨t', ht', hcontents⟩ := exists_parse_of_programmed (programmed_of_parse h) 0 0
    obtain ⟨u', hu', hcontents'⟩ := exists_parse_of_programmed (programmed_of_parse hu) 0 0
    rw [← text_of_parse h, htext, text_of_parse hu, hu'] at ht'
    cases ht'
    rw [← hcontents, hcontents']

theorem parse_text_of_parse_lambda :
    ∃ t u, parse 1 0 "(λ [x] (let ((y \"a\\\"b\")) (when ... x y))) ; end\n;; last" = .ok t ∧
      parse 1 0 "(lambda (x) (let ([y \"a\\\"b\"]) (when ... x y)))\n; end\n;; last" = .ok u ∧ t.text = u.text ∧
      (∀ depth' serial', ∃ t', parse depth' serial' t.text = .ok t' ∧ t'.roots.length = t.roots.length ∧
        t'.contents = t.contents ∧ t'.text = t.text) ∧ t.contents = u.contents := by
  have ht : (parse 1 0 "(λ [x] (let ((y \"a\\\"b\")) (when ... x y))) ; end\n;; last").toOption.map Tree.text =
      some "(lambda (x) (let ([y \"a\\\"b\"]) (when ... x y)))\n; end\n;; last" := by decide +kernel
  have hu : (parse 1 0 "(lambda (x) (let ([y \"a\\\"b\"]) (when ... x y)))\n; end\n;; last").toOption.map Tree.text =
      some "(lambda (x) (let ([y \"a\\\"b\"]) (when ... x y)))\n; end\n;; last" := by decide +kernel
  obtain ⟨t, ht, httext⟩ := Option.map_eq_some_iff.mp ht
  obtain ⟨u, hu, hutext⟩ := Option.map_eq_some_iff.mp hu
  rw [← Option.mem_def, mem_toOption_iff] at ht hu
  have htext : t.text = u.text := httext.trans hutext.symm
  obtain ⟨hagain, hsame⟩ := parse_text_of_parse ht
  exact ⟨t, u, ht, hu, htext, hagain, (hsame hu).mpr htext⟩

end StructuralEditor.Scheme
