import StructuralEditor.Proofs.Scheme.RoundTrip

/-!
# Blanks and comments do not count

* `Token.code`, `codeOf` : the lexemes of tokens, and of a text, without the comments;
* `Datum.Alike` : data that are the same but for their spans;
* `Item.exists_nested_of_code_eq` : tokens with the same code spell such data;
* `means_of_alike` : such data mean the same;
* `Tree.codeRoots` : the roots that are no comments;
* `exists_parse_of_codeOf_eq` : texts with the same code are parsed into the same contents of such roots.
-/

namespace StructuralEditor

namespace Scheme

/-! ## The code of a text -/

namespace Token

def code? (token : Token) : Option Lexeme :=
  match token.lexeme with
  | .comment _ => none
  | lexeme => some lexeme

def code (tokens : List Token) : List Lexeme := tokens.filterMap code?

theorem lexeme_of_code? {token : Token} {lexeme : Lexeme} (h : token.code? = some lexeme) : token.lexeme = lexeme := by
  obtain ⟨found, span⟩ := token
  cases found with
  | comment text => cases h
  | opening | closing | string | atom => exact Option.some.inj h

theorem exists_comment_of_code? {token : Token} (h : token.code? = none) : ∃ text, token.lexeme = .comment text := by
  obtain ⟨found, span⟩ := token
  cases found with
  | comment text => exact ⟨text, rfl⟩
  | opening | closing | string | atom => cases h

end Token

open Token (code code? tokenize)

def codeOf (text : String) : Except ParseError (List Lexeme) := (tokenize text).map code

theorem exists_tokenize_of_codeOf_eq {source source' : String} {tokens : List Token}
    (h : tokenize source = .ok tokens) (hcode : codeOf source' = codeOf source) :
    ∃ tokens', tokenize source' = .ok tokens' ∧ code tokens = code tokens' := by
  unfold codeOf at hcode
  rw [h] at hcode
  cases htokens : tokenize source' with
  | error e =>
    rw [htokens] at hcode
    cases hcode
  | ok tokens' =>
    rw [htokens] at hcode
    exact ⟨tokens', rfl, (Except.ok.inj hcode).symm⟩

/-! ## Data but for their spans -/

/-- The data are the same but for their spans. -/
inductive Datum.Alike : Datum → Datum → Prop
  | atom (text : String) (span span' : Span) : Alike (.atom text span) (.atom text span')
  | string (text : String) (span span' : Span) : Alike (.string text span) (.string text span')
  | list {data data' : List Datum} (span span' : Span) (h : List.Forall₂ Alike data data') :
    Alike (.list data span) (.list data' span')

namespace Item

/-- Comments before tokens do not change the data that these spell. -/
theorem Nested.exists_prepend {n : Nat} {tokens comments : List Token} {items : List Item} {found : List Datum}
    (h : Nested n tokens items) (halike : List.Forall₂ Datum.Alike found (data items))
    (hcomments : ∀ token ∈ comments, token.code? = none) :
    ∃ items', Nested n (comments ++ tokens) items' ∧ List.Forall₂ Datum.Alike found (data items') := by
  induction comments with
  | nil => exact ⟨items, h, halike⟩
  | cons comment comments ih =>
    obtain ⟨hcomment, hrest⟩ := List.forall_mem_cons.mp hcomments
    obtain ⟨items', hnested, halike'⟩ := ih hrest
    obtain ⟨lexeme, span⟩ := comment
    obtain ⟨text, rfl⟩ : ∃ text, lexeme = .comment text := Token.exists_comment_of_code? hcomment
    exact ⟨_, .comment text span hnested, halike'⟩

theorem exists_of_code_cons {tokens : List Token} {lexeme : Lexeme} {rest : List Lexeme}
    (h : code tokens = lexeme :: rest) : ∃ comments span tokens', tokens = comments ++ ⟨lexeme, span⟩ :: tokens' ∧
      (∀ token ∈ comments, token.code? = none) ∧ code tokens' = rest := by
  obtain ⟨comments, ⟨found, span⟩, tokens', rfl, hcomments, hfound, hrest⟩ := List.filterMap_eq_cons_iff.mp h
  obtain rfl : found = lexeme := Token.lexeme_of_code? hfound
  exact ⟨comments, span, tokens', rfl, hcomments, hrest⟩

/-- Tokens with the same code as nested ones are nested too, and spell the same data but for their spans. -/
theorem exists_nested_of_code_eq {n : Nat} {tokens : List Token} {items : List Item} (h : Nested n tokens items)
    {tokens' : List Token} (hcode : code tokens = code tokens') :
    ∃ items', Nested n tokens' items' ∧ List.Forall₂ Datum.Alike (data items) (data items') := by
  induction h generalizing tokens' with
  | nil =>
    have hcomments := List.filterMap_eq_nil_iff.mp hcode.symm
    rw [← List.append_nil tokens']
    exact Nested.exists_prepend .nil .nil hcomments
  | atom text span _ ih =>
    obtain ⟨comments, span', rest, rfl, hcomments, hrest⟩ := exists_of_code_cons hcode.symm
    obtain ⟨items', hnested, halike⟩ := ih hrest.symm
    exact (Nested.atom text span' hnested).exists_prepend (.cons (.atom text span span') halike) hcomments
  | string text span _ ih =>
    obtain ⟨comments, span', rest, rfl, hcomments, hrest⟩ := exists_of_code_cons hcode.symm
    obtain ⟨items', hnested, halike⟩ := ih hrest.symm
    exact (Nested.string text span' hnested).exists_prepend (.cons (.string text span span') halike) hcomments
  | comment text span _ ih => exact ih hcode
  | @list n inner tokens parts items bracket opened closed _ _ ihinner ihrest =>
    have hsplit : code tokens' = .opening bracket :: (code inner ++ .closing bracket :: code tokens) := by
      rw [← hcode]
      show Lexeme.opening bracket :: List.filterMap code? (inner ++ _ :: tokens) = _
      rw [List.filterMap_append]
      rfl
    obtain ⟨comments, opened', more, rfl, hcomments, hmore⟩ := exists_of_code_cons hsplit
    obtain ⟨inner', more, rfl, hinner, hmore⟩ := List.filterMap_eq_append_iff.mp hmore
    obtain ⟨comments', closed', rest, rfl, hcomments', hrest⟩ := exists_of_code_cons hmore
    have hinner' : code inner = code (inner' ++ comments') := by
      show _ = List.filterMap code? (inner' ++ comments')
      rw [List.filterMap_append, List.filterMap_eq_nil_iff.mpr hcomments', List.append_nil]
      exact hinner.symm
    obtain ⟨parts', hparts, halike⟩ := ihinner hinner'
    obtain ⟨items', hitems, halike'⟩ := ihrest hrest.symm
    have hlist := Nested.list bracket opened' closed' hparts hitems
    rw [List.append_assoc] at hlist
    exact hlist.exists_prepend (.cons (.list _ _ halike) halike') hcomments

end Item

/-! ## What such data stand for -/

theorem Datum.Alike.form?_eq {datum other : Datum} (h : datum.Alike other) : other.form? = datum.form? := by
  cases h <;> rfl

theorem meansAll_of_alike {slot : Slot} {ps : List (Datum × Draft)}
    (h : ∀ p ∈ ps, ∀ {other}, p.1.Alike other → Means slot other p.2.content) {others : List Datum}
    (hall : List.Forall₂ Datum.Alike (ps.map Prod.fst) others) :
    MeansAll slot others ((ps.map Prod.snd).map Draft.content) := by
  induction ps generalizing others with
  | nil =>
    cases hall
    exact .nil slot
  | cons p ps ih =>
    obtain ⟨hp, hps⟩ := List.forall_mem_cons.mp h
    obtain _ | ⟨hfirst, hrest⟩ := hall
    exact .cons (hp hfirst) (ih hps hrest)

theorem named_of_alike {names : List (String × Span)} {others : List Datum}
    (hall : List.Forall₂ Datum.Alike (names.map Datum.ofName) others) : Named (names.map Prod.fst) others := by
  induction names generalizing others with
  | nil =>
    cases hall
    exact .nil
  | cons name names ih =>
    obtain _ | ⟨⟨_, _, span⟩, hrest⟩ := hall
    exact (ih hrest).cons name.1 span

theorem means_of_alike {slot : Slot} {datum : Datum} {d : Draft} (h : Reads slot datum d) {other : Datum}
    (halike : datum.Alike other) : Means slot other d.content := by
  induction h generalizing other with
  | atom text span =>
    obtain ⟨_, _, span'⟩ := halike
    rw [Draft.content_ofAtom]
    exact .atom text span'
  | string text span =>
    obtain _ | ⟨_, _, span'⟩ := halike
    rw [Draft.content_mk]
    exact .string text span'
  | emptyList span =>
    obtain _ | _ | ⟨_, span', hall⟩ := halike
    cases hall
    rw [Draft.content_mk]
    exact .emptyList span'
  | application span hform _ _ ihhead ih =>
    obtain _ | _ | ⟨_, span', _ | ⟨hhead, harguments⟩⟩ := halike
    rw [Draft.content_mk]
    exact .application (hhead.form?_eq.trans hform) (ihhead hhead) (meansAll_of_alike ih harguments) span'
  | variableDefinition name nameSpan span hform _ ih =>
    obtain _ | _ | ⟨_, span', _ | ⟨hhead, _ | ⟨⟨_, _, nameSpan'⟩, _ | ⟨hbody, ⟨⟩⟩⟩⟩⟩ := halike
    rw [Draft.content_mk, Kind.map, Draft.content_ofAtom]
    exact .variableDefinition (hhead.form?_eq.trans hform) name nameSpan' (ih hbody) span'
  | functionDefinition name nameSpan headerSpan span parameters hform _ ih =>
    obtain _ | _ | ⟨_, span', _ | ⟨hhead, _ | ⟨_ | _ | ⟨_, headerSpan', _ | ⟨⟨_, _, nameSpan'⟩, hparameters⟩⟩,
      _ | ⟨hbody, ⟨⟩⟩⟩⟩⟩ := halike
    rw [Draft.content_mk, Kind.map, Draft.content_ofAtom, Draft.content_ofNames]
    exact .functionDefinition (hhead.form?_eq.trans hform) name nameSpan' headerSpan' (named_of_alike hparameters)
      (ih hbody) span'
  | structDefinition name nameSpan fieldsSpan span fields hform =>
    obtain _ | _ | ⟨_, span', _ | ⟨hhead, _ | ⟨⟨_, _, nameSpan'⟩, _ | ⟨_ | _ | ⟨_, fieldsSpan', hfields⟩, ⟨⟩⟩⟩⟩⟩ :=
      halike
    rw [Draft.content_mk, Kind.map, Draft.content_ofAtom, Draft.content_ofNames]
    exact .structDefinition (hhead.form?_eq.trans hform) name nameSpan' fieldsSpan' (named_of_alike hfields) span'
  | lambda parametersSpan span parameters hform _ ih =>
    obtain _ | _ | ⟨_, span', _ | ⟨hhead, _ | ⟨_ | _ | ⟨_, parametersSpan', hparameters⟩, _ | ⟨hbody, ⟨⟩⟩⟩⟩⟩ := halike
    rw [Draft.content_mk, Kind.map, Draft.content_ofNames]
    exact .lambda (hhead.form?_eq.trans hform) parametersSpan' (named_of_alike hparameters) (ih hbody) span'
  | ifElse span hform _ _ _ ihtest ihconsequent ihalternative =>
    obtain _ | _ | ⟨_, span', _ | ⟨hhead, _ | ⟨htest, _ | ⟨hconsequent, _ | ⟨halternative, ⟨⟩⟩⟩⟩⟩⟩ := halike
    rw [Draft.content_mk]
    exact .ifElse (hhead.form?_eq.trans hform) (ihtest htest) (ihconsequent hconsequent)
      (ihalternative halternative) span'
  | conditional span hform hne _ ih =>
    obtain _ | _ | ⟨_, span', _ | ⟨hhead, hclauses⟩⟩ := halike
    rw [Draft.content_mk]
    exact .conditional (hhead.form?_eq.trans hform) (by simpa using hne) (meansAll_of_alike ih hclauses) span'
  | clause span hne _ _ ihtest ih =>
    obtain _ | _ | ⟨_, span', _ | ⟨htest, hconsequents⟩⟩ := halike
    rw [Draft.content_mk]
    exact .clause (by simpa using hne) (ihtest htest) (meansAll_of_alike ih hconsequents) span'
  | begin span hform hne _ ih =>
    obtain _ | _ | ⟨_, span', _ | ⟨hhead, hexpressions⟩⟩ := halike
    rw [Draft.content_mk]
    exact .begin (hhead.form?_eq.trans hform) (by simpa using hne) (meansAll_of_alike ih hexpressions) span'
  | guarded span hform _ _ ihpredicate ih =>
    obtain _ | _ | ⟨_, span', _ | ⟨hhead, _ | ⟨hpredicate, hbody⟩⟩⟩ := halike
    rw [Draft.content_mk, Kind.map, Draft.content_mk]
    exact .guarded (hhead.form?_eq.trans hform) (by simp) (ihpredicate hpredicate) (meansAll_of_alike ih hbody) span'
  | letForm bindingsSpan span hform _ _ ih ihbody =>
    obtain _ | _ | ⟨_, span', _ | ⟨hhead, _ | ⟨_ | _ | ⟨_, bindingsSpan', hbindings⟩, _ | ⟨hbody, ⟨⟩⟩⟩⟩⟩ := halike
    rw [Draft.content_mk, Kind.map, Draft.content_mk]
    exact .letForm (hhead.form?_eq.trans hform) bindingsSpan' (meansAll_of_alike ih hbindings) (ihbody hbody) span'
  | binding name nameSpan span _ ih =>
    obtain _ | _ | ⟨_, span', _ | ⟨⟨_, _, nameSpan'⟩, _ | ⟨hvalue, ⟨⟩⟩⟩⟩ := halike
    rw [Draft.content_mk, Kind.map, Draft.content_ofAtom]
    exact .binding name nameSpan' (ih hvalue) span'

theorem exists_draftAll_of_alike {data others : List Datum} {drafts : List Draft}
    (h : Datum.draftAll data = .ok drafts) (hall : List.Forall₂ Datum.Alike data others) :
    ∃ drafts', Datum.draftAll others = .ok drafts' ∧ drafts'.map Draft.content = drafts.map Draft.content := by
  obtain ⟨ps, rfl, rfl, hps⟩ := Datum.reads_of_draftAll _ h
  obtain ⟨drafts', hreads, hcontents⟩ := meansAll_of_alike (fun p hp _ => means_of_alike (hps p hp)) hall
  exact ⟨drafts', Datum.draftAll_of_readsAll hreads, hcontents⟩

theorem Reads.tag_ne_comment {slot : Slot} {datum : Datum} {d : Draft} (h : Reads slot datum d) :
    d.kind.tag ≠ .comment := by
  cases h with
  | atom text span =>
    unfold Draft.ofAtom
    split <;> exact nofun
  | _ => exact nofun

end Scheme

/-! ## Roots that are no comments -/

def Tree.codeRoots (t : Tree) : List Nat := t.roots.filter fun root => t.table.tag? root ≠ some .comment

namespace Scheme

/-- Of roots that spell drafts and then comments, those of the drafts are no comments. -/
theorem Spelled.codeRoots {t : Tree} {drafts comments : List Draft} (h : Spelled t (drafts ++ comments))
    (hdrafts : ∀ d ∈ drafts, d.kind.tag ≠ .comment) (hcomments : ∀ d ∈ comments, d.kind.tag = .comment) :
    t.codeRoots <+: t.roots ∧ t.codeRoots.map t.table.content = drafts.map Draft.content := by
  have htags : ∀ {roots ds}, List.Forall₂ t.table.Spells roots ds → ∀ root ∈ roots, ∃ d ∈ ds,
      some d.kind.tag = t.table.tag? root := by
    intro roots ds hall root hroot
    have hmap := map_eq_map_of_forall₂ (hall.imp fun _ _ hspells => hspells.tag)
    exact List.mem_map.mp (hmap ▸ List.mem_map_of_mem hroot)
  have hcode := List.forall₂_take_append t.roots drafts comments h.roots
  have hrest := List.forall₂_drop_append t.roots drafts comments h.roots
  have htake : t.codeRoots = t.roots.take drafts.length := by
    rw [Tree.codeRoots]
    conv_lhs => rw [← List.take_append_drop drafts.length t.roots]
    rw [List.filter_append, List.filter_eq_self.mpr, List.filter_eq_nil_iff.mpr, List.append_nil]
    · intro root hroot
      obtain ⟨d, hd, htag⟩ := htags hrest root hroot
      simp [← htag, hcomments d hd]
    · intro root hroot
      obtain ⟨d, hd, htag⟩ := htags hcode root hroot
      simpa [← htag] using hdrafts d hd
  rw [htake]
  exact ⟨List.take_prefix _ _, map_eq_map_of_forall₂ (hcode.imp fun _ _ hspells => hspells.content h.ordered)⟩

/-- The roots of a planted program that are no comments come first, and say what the drafts say. -/
theorem codeRoots_plantProgram {items : List Item} {drafts : List Draft} (h : draftProgram items = .ok drafts)
    (depth serial : Nat) :
    (plantProgram depth serial items drafts).codeRoots <+: (plantProgram depth serial items drafts).roots ∧
      (plantProgram depth serial items drafts).codeRoots.map (plantProgram depth serial items drafts).table.content =
        drafts.map Draft.content := by
  obtain ⟨ps, -, rfl, hps⟩ := Datum.reads_of_draftAll _ h
  refine (spelled_plantProgram depth serial items _).codeRoots (fun d hd => ?_) fun d hd => ?_
  · obtain ⟨p, hp, rfl⟩ := List.mem_map.mp hd
    exact (hps p hp).tag_ne_comment
  · obtain ⟨comment, -, rfl⟩ := List.mem_map.mp hd
    rfl

/-- The roots of a planted program that are no comments spell the drafts, one for one. -/
theorem spells_codeRoots {items : List Item} {drafts : List Draft} (h : draftProgram items = .ok drafts)
    (depth serial : Nat) :
    List.Forall₂ (plantProgram depth serial items drafts).table.Spells (plantProgram depth serial items drafts).codeRoots
      drafts := by
  obtain ⟨hfirst, hcontents⟩ := codeRoots_plantProgram h depth serial
  have hlength := congrArg List.length hcontents
  rw [List.length_map, List.length_map] at hlength
  rw [List.prefix_iff_eq_take.mp hfirst, hlength]
  exact List.forall₂_take_append _ _ _ (spelled_plantProgram depth serial items drafts).roots

theorem codeRoots_prefix_of_parse {depth serial : Nat} {source : String} {t : Tree}
    (h : parse depth serial source = .ok t) : t.codeRoots <+: t.roots := by
  obtain ⟨tokens, items, drafts, -, -, hdrafts, rfl⟩ := parse_eq_ok_iff.mp h
  exact (codeRoots_plantProgram hdrafts depth serial).1

/-- Texts with the same code are parsed into roots of the same contents, but for those of comments. -/
theorem exists_parse_of_codeOf_eq {depth serial : Nat} {source source' : String} {t : Tree}
    (h : parse depth serial source = .ok t) (hcode : codeOf source' = codeOf source) (depth' serial' : Nat) :
    ∃ t', parse depth' serial' source' = .ok t' ∧
      t'.codeRoots.map t'.table.content = t.codeRoots.map t.table.content := by
  obtain ⟨tokens, items, drafts, htokens, hitems, hdrafts, rfl⟩ := parse_eq_ok_iff.mp h
  obtain ⟨tokens', htokens', hcode'⟩ := exists_tokenize_of_codeOf_eq htokens hcode
  obtain ⟨items', hnested, halike⟩ := Item.exists_nested_of_code_eq (Item.read_eq_ok_iff.mp hitems) hcode'
  obtain ⟨drafts', hdrafts', hcontents⟩ := exists_draftAll_of_alike hdrafts halike
  refine ⟨plantProgram depth' serial' items' drafts', parse_eq_ok_iff.mpr
    ⟨tokens', items', drafts', htokens', Item.read_eq_ok_iff.mpr hnested, hdrafts', rfl⟩, ?_⟩
  rw [(codeRoots_plantProgram hdrafts' depth' serial').2, hcontents, (codeRoots_plantProgram hdrafts depth serial).2]

end Scheme

end StructuralEditor
