import StructuralEditor.Proofs.Scheme.Planning
import StructuralEditor.Proofs.Scheme.Spacing
import StructuralEditor.Proofs.Scheme.Spans

/-!
# Parts of a text read alone

* `Token.Extent`, `Scanned` : the stretch that tokens lead over, and the lexemes of a text wherever it starts;
* `Token.exists_slice` : the text over some tokens in a row can be cut out, and has the same lexemes;
* `Datum.SpelledIn` : the datum is spelled by some tokens in a row; so are the data in it;
* `Excerpted` : the text at a stretch can be cut out, and is parsed alone into one root;
* `excerpted_of_spelledIn`, `excerpted_of_trailing` : so it is with the data of a text, and with the comments behind
  the last of them.
-/

namespace StructuralEditor.Scheme

/-! ## Scanning a part of a text -/

/-- Of what is behind a lexeme only the first character matters, if there is one. -/
theorem Lexeme.Stands.of_head {lexeme : Lexeme} {raw rest rest' : List Char} (h : lexeme.Stands raw rest)
    (hhead : ∀ c ∈ rest'.head?, c ∈ rest.head?) : lexeme.Stands raw rest' := by
  cases lexeme with
  | opening bracket | closing bracket | string text => exact h
  | atom text =>
    obtain ⟨htext, hne, hword, hends⟩ := h
    exact ⟨htext, hne, hword, fun c hc => hends c (hhead c hc)⟩
  | comment text =>
    obtain ⟨htext, hline, hends⟩ := h
    exact ⟨htext, hline, fun c hc => hends c (hhead c hc)⟩

theorem Lexeme.Stands.of_append {lexeme : Lexeme} {raw rest more : List Char}
    (h : lexeme.Stands raw (rest ++ more)) : lexeme.Stands raw rest := by
  refine h.of_head fun c hc => ?_
  rw [List.head?_append, Option.mem_def.mp hc]
  rfl

/-- The stretch goes from the start of the first token to the end of the last. -/
def Token.Extent (tokens : List Token) (s : Span) : Prop :=
  (∃ first ∈ tokens.head?, first.span.start = s.start) ∧ ∃ last ∈ tokens.getLast?, last.span.stop = s.stop

/-- The text is scanned, wherever it starts, into these lexemes. -/
def Scanned (text : List Char) (lexemes : List Lexeme) : Prop :=
  ∀ p, ∃ tokens, Scans p text tokens [] ∧ tokens.map (·.lexeme) = lexemes

namespace Token

theorem extent_singleton (token : Token) : Extent [token] token.span := ⟨⟨token, rfl, rfl⟩, token, rfl, rfl⟩

theorem Extent.unique {tokens : List Token} {s s' : Span} (h : Extent tokens s) (h' : Extent tokens s') : s = s' := by
  obtain ⟨⟨first, hfirst, hstart⟩, last, hlast, hstop⟩ := h
  obtain ⟨⟨first', hfirst', hstart'⟩, last', hlast', hstop'⟩ := h'
  cases (Option.mem_def.mp hfirst).symm.trans hfirst'
  cases (Option.mem_def.mp hlast).symm.trans hlast'
  cases s
  cases s'
  exact congrArg₂ Span.mk (hstart.symm.trans hstart') (hstop.symm.trans hstop')

end Token

namespace Scans

variable {p : Position} {passed rest : List Char} {token : Token} {tokens : List Token}

theorem of_blanks {blanks : List Char} (hblanks : ∀ c ∈ blanks, Text.isBlank c = true)
    (h : Scans (p.after blanks) passed tokens rest) : Scans p (blanks ++ passed) tokens rest := by
  induction blanks generalizing p with
  | nil => exact h
  | cons c blanks ih =>
    obtain ⟨hc, hblanks⟩ := List.forall_mem_cons.mp hblanks
    exact .blank c hc (ih hblanks h)

theorem exists_first (h : Scans p passed (token :: tokens) rest) : ∃ blanks raw more,
    passed = blanks ++ (raw ++ more) ∧ (∀ c ∈ blanks, Text.isBlank c = true) ∧
      token.span = ⟨p.after blanks, p.after (blanks ++ raw)⟩ ∧ token.lexeme.Stands raw (more ++ rest) ∧
      Scans (p.after (blanks ++ raw)) more tokens rest := by
  generalize hall : token :: tokens = all at h
  induction h with
  | done p rest => cases hall
  | blank c hc _ ih =>
    obtain ⟨blanks, raw, more, rfl, hblanks, hspan, hstands, hscans⟩ := ih hall
    exact ⟨c :: blanks, raw, more, rfl, List.forall_mem_cons.mpr ⟨hc, hblanks⟩, hspan, hstands, hscans⟩
  | @lexeme p raw more rest tokens lexeme hstands h =>
    cases hall
    exact ⟨[], raw, more, rfl, by simp, rfl, hstands, h⟩

theorem exists_drop {before : List Token} (h : Scans p passed (before ++ tokens) rest) :
    ∃ first more, passed = first ++ more ∧ Scans (p.after first) more tokens rest := by
  induction before generalizing p passed with
  | nil => exact ⟨[], passed, rfl, h⟩
  | cons token before ih =>
    obtain ⟨blanks, raw, more, rfl, -, -, -, hscans⟩ := h.exists_first
    obtain ⟨first, more, rfl, hscans⟩ := ih hscans
    refine ⟨blanks ++ raw ++ first, more, by simp, ?_⟩
    rwa [Position.after_append]

/-- What stands from the start of the first token to the end of a later one is scanned alone into the same lexemes. -/
theorem exists_excerpt {block behind : List Token} (h : Scans p passed (token :: block ++ behind) rest) :
    ∃ blanks text more, passed = blanks ++ text ++ more ∧ (∀ c ∈ blanks, Text.isBlank c = true) ∧
      Token.Extent (token :: block) ⟨p.after blanks, p.after (blanks ++ text)⟩ ∧
      Scanned text ((token :: block).map (·.lexeme)) := by
  induction block generalizing p passed token with
  | nil =>
    obtain ⟨blanks, raw, more, rfl, hblanks, hspan, hstands, -⟩ := h.exists_first
    have halone : token.lexeme.Stands raw [] := Lexeme.Stands.of_append hstands
    refine ⟨blanks, raw, more, by simp, hblanks, hspan ▸ Token.extent_singleton token, fun q => ?_⟩
    have hscans : Scans q (raw ++ []) [⟨token.lexeme, ⟨q, q.after raw⟩⟩] [] := .lexeme token.lexeme halone (.done _ [])
    rw [List.append_nil] at hscans
    exact ⟨_, hscans, rfl⟩
  | cons next block ih =>
    obtain ⟨blanks, raw, more, rfl, hblanks, hspan, hstands, hscans⟩ := h.exists_first
    obtain ⟨blanks', text, more, rfl, hblanks', ⟨-, last, hlast, hstop⟩, hscanned⟩ := ih hscans
    refine ⟨blanks, raw ++ (blanks' ++ text), more, by simp, hblanks, ⟨⟨token, rfl, ?_⟩, last, ?_, ?_⟩, fun q => ?_⟩
    · rw [hspan]
    · rw [List.getLast?_cons_cons]
      exact hlast
    · show last.span.stop = p.after (blanks ++ (raw ++ (blanks' ++ text)))
      rw [hstop, ← List.append_assoc blanks, Position.after_append _ (blanks ++ raw)]
    · obtain ⟨tokens, htokens, hlexemes⟩ := hscanned ((q.after raw).after blanks')
      have halone : token.lexeme.Stands raw (blanks' ++ text ++ []) := by
        rw [List.append_assoc] at hstands
        rw [List.append_nil]
        exact hstands.of_append
      refine ⟨_, .lexeme token.lexeme halone (.of_blanks hblanks' htokens), ?_⟩
      rw [List.map_cons, List.map_cons, hlexemes]

end Scans

/-- The text over some of its tokens can be cut out, and has the same lexemes. -/
theorem Token.exists_slice {source : String} {before block behind : List Token}
    (h : tokenize source = .ok (before ++ block ++ behind)) {s : Span} (hs : Extent block s) :
    ∃ excerpt tokens, (⟨source⟩ : Buffer).slice s.start s.stop = .ok excerpt ∧ tokenize excerpt = .ok tokens ∧
      tokens.map (·.lexeme) = block.map (·.lexeme) := by
  have hscans := scan_eq_ok_iff.mp h
  rw [List.append_assoc] at hscans
  obtain ⟨first, more, hsource, hscans⟩ := hscans.exists_drop
  cases block with
  | nil =>
    obtain ⟨⟨token, htoken, -⟩, -⟩ := hs
    cases htoken
  | cons token block =>
    obtain ⟨blanks, text, more, rfl, -, hextent, hscanned⟩ := hscans.exists_excerpt
    obtain ⟨tokens, htokens, hlexemes⟩ := hscanned Position.zero
    have hchars : source.toList = (first ++ blanks) ++ text ++ more := by
      rw [hsource, List.append_assoc, List.append_assoc, List.append_assoc]
    refine ⟨String.ofList text, tokens, ?_, ?_, hlexemes⟩
    · rw [hs.unique hextent, ← Position.after_append, ← Position.after_append, ← List.append_assoc]
      exact Buffer.slice_after hchars
    · rw [tokenize, String.toList_ofList]
      exact scan_eq_ok_iff.mpr htokens

/-! ## Tokens of one datum -/

theorem Token.code_eq_of_lexemes {tokens tokens' : List Token} (h : tokens'.map (·.lexeme) = tokens.map (·.lexeme)) :
    code tokens' = code tokens := by
  have hcode : ∀ ts : List Token, code ts = (ts.map (·.lexeme)).filterMap fun lexeme =>
      code? ⟨lexeme, Span.empty Position.zero⟩ := by
    intro ts
    rw [List.filterMap_map]
    rfl
  rw [hcode, hcode, h]

namespace Item

theorem Nested.mono {n m : Nat} {tokens : List Token} {items : List Item} (h : Nested n tokens items) (hle : n ≤ m) :
    Nested m tokens items := by
  induction h generalizing m with
  | nil => exact .nil
  | atom text span _ ih => exact .atom text span (ih hle)
  | string text span _ ih => exact .string text span (ih hle)
  | comment text span _ ih => exact .comment text span (ih hle)
  | list bracket opened closed _ _ ihinner ihrest =>
    obtain ⟨m, rfl⟩ : ∃ k, m = k + 1 := ⟨m - 1, by omega⟩
    exact .list bracket opened closed (ihinner (Nat.le_of_succ_le_succ hle)) (ihrest hle)

theorem Nested.exists_list {n : Nat} {tokens : List Token} {parts : List Item} {span : Span}
    (h : Nested n tokens [.list parts span]) : ∃ m bracket opened closed inner, n = m + 1 ∧
      tokens = ⟨.opening bracket, opened⟩ :: (inner ++ [⟨.closing bracket, closed⟩]) ∧
      span = opened.union closed ∧ Nested m inner parts := by
  cases h with
  | @list n inner tokens parts items bracket opened closed hinner hrest =>
    cases hrest
    exact ⟨n, bracket, opened, closed, inner, rfl, rfl, rfl, hinner⟩

theorem Nested.extent {n : Nat} {tokens : List Token} {item : Item} (h : Nested n tokens [item])
    (hproper : ∀ token ∈ tokens, token.span.start < token.span.stop)
    (hapart : tokens.Pairwise fun a b => a.span.stop ≤ b.span.start) : Token.Extent tokens item.span := by
  cases item with
  | atom text span | string text span | comment text span =>
    obtain ⟨⟩ | ⟨-, -, ⟨⟩⟩ | ⟨-, -, ⟨⟩⟩ | ⟨-, -, ⟨⟩⟩ := h
    exact Token.extent_singleton _
  | list parts span =>
    obtain ⟨m, bracket, opened, closed, inner, rfl, rfl, rfl, -⟩ := h.exists_list
    have hclosed : (⟨.closing bracket, closed⟩ : Token) ∈ inner ++ [⟨.closing bracket, closed⟩] := by simp
    have hle : opened.stop ≤ closed.start := (List.pairwise_cons.mp hapart).1 _ hclosed
    have hopened : opened.start < opened.stop := hproper _ List.mem_cons_self
    have hclosed' : closed.start < closed.stop := hproper _ (List.mem_cons_of_mem _ hclosed)
    have hunion : opened.union closed = ⟨opened.start, closed.stop⟩ :=
      Span.union_of_le (hopened.le.trans hle) (hle.trans hclosed'.le)
    show Token.Extent _ (opened.union closed)
    rw [hunion]
    refine ⟨⟨_, rfl, rfl⟩, ⟨.closing bracket, closed⟩, ?_, rfl⟩
    rw [← List.cons_append, List.getLast?_concat]
    rfl

theorem span_of_datum? {item : Item} {datum : Datum} (h : item.datum? = some datum) : item.span = datum.span := by
  cases item with
  | atom text span | string text span | list parts span =>
    cases h
    rfl
  | comment text span => cases h

/-- Tokens with the same lexemes spell the same datum but for its spans. -/
theorem Nested.exists_alike {n : Nat} {tokens tokens' : List Token} {item : Item} {datum : Datum}
    (h : Nested n tokens [item]) (hdatum : item.datum? = some datum)
    (hlexemes : tokens'.map (·.lexeme) = tokens.map (·.lexeme)) :
    ∃ item' datum', Nested n tokens' [item'] ∧ item'.datum? = some datum' ∧ datum.Alike datum' := by
  cases item with
  | atom text span =>
    cases h with
    | atom _ _ hrest =>
      cases hrest
      cases hdatum
      obtain ⟨⟨_, span'⟩, rest, rfl, rfl, hrest⟩ := List.map_eq_cons_iff.mp hlexemes
      obtain rfl := List.map_eq_nil_iff.mp hrest
      exact ⟨.atom text span', _, .atom text span' .nil, rfl, .atom text span span'⟩
  | string text span =>
    cases h with
    | string _ _ hrest =>
      cases hrest
      cases hdatum
      obtain ⟨⟨_, span'⟩, rest, rfl, rfl, hrest⟩ := List.map_eq_cons_iff.mp hlexemes
      obtain rfl := List.map_eq_nil_iff.mp hrest
      exact ⟨.string text span', _, .string text span' .nil, rfl, .string text span span'⟩
  | comment text span => cases hdatum
  | list parts span =>
    obtain ⟨m, bracket, opened, closed, inner, rfl, rfl, rfl, hinner⟩ := h.exists_list
    cases hdatum
    obtain ⟨⟨_, opened'⟩, more, rfl, rfl, hmore⟩ := List.map_eq_cons_iff.mp hlexemes
    rw [List.map_append] at hmore
    obtain ⟨inner', last, rfl, hinner', hlast⟩ := List.map_eq_append_iff.mp hmore
    obtain ⟨⟨_, closed'⟩, rest, rfl, rfl, hrest⟩ := List.map_eq_cons_iff.mp hlast
    obtain rfl := List.map_eq_nil_iff.mp hrest
    obtain ⟨parts', hparts, halike⟩ := exists_nested_of_code_eq hinner (Token.code_eq_of_lexemes hinner').symm
    exact ⟨_, _, .list bracket opened' closed' hparts .nil, rfl, .list _ _ halike⟩

end Item

def Datum.SpelledIn (tokens : List Token) (datum : Datum) : Prop :=
  ∃ before block behind item, tokens = before ++ block ++ behind ∧ Item.Nested maxNesting block [item] ∧
    item.datum? = some datum

namespace Datum

theorem SpelledIn.mono {tokens more : List Token} {datum : Datum} (h : SpelledIn tokens datum)
    (hmore : tokens <:+: more) : SpelledIn more datum := by
  obtain ⟨before, block, behind, item, rfl, hnested, hdatum⟩ := h
  obtain ⟨first, last, rfl⟩ := hmore
  exact ⟨first ++ before, block, behind ++ last, item, by simp, hnested, hdatum⟩

theorem spelledIn_of_nested {n : Nat} {tokens : List Token} {items : List Item} (h : Item.Nested n tokens items)
    (hle : n ≤ maxNesting) : ∀ datum ∈ Item.data items, SpelledIn tokens datum := by
  induction h with
  | nil => simp [Item.data]
  | @atom n tokens items text span _ ih =>
    refine List.forall_mem_cons.mpr ⟨⟨[], [_], tokens, _, rfl, .atom text span .nil, rfl⟩, fun datum hdatum => ?_⟩
    exact (ih hle datum hdatum).mono (List.infix_cons List.infix_rfl)
  | @string n tokens items text span _ ih =>
    refine List.forall_mem_cons.mpr ⟨⟨[], [_], tokens, _, rfl, .string text span .nil, rfl⟩, fun datum hdatum => ?_⟩
    exact (ih hle datum hdatum).mono (List.infix_cons List.infix_rfl)
  | comment text span _ ih => exact fun datum hdatum => (ih hle datum hdatum).mono (List.infix_cons List.infix_rfl)
  | @list n inner tokens parts items bracket opened closed hinner _ _ ihrest =>
    refine List.forall_mem_cons.mpr ⟨⟨[], ⟨.opening bracket, opened⟩ :: (inner ++ [⟨.closing bracket, closed⟩]), tokens,
      _, by simp, (Item.Nested.list bracket opened closed hinner .nil).mono hle, rfl⟩, fun datum hdatum => ?_⟩
    exact (ihrest hle datum hdatum).mono ⟨⟨.opening bracket, opened⟩ :: (inner ++ [⟨.closing bracket, closed⟩]), [],
      by simp⟩

theorem SpelledIn.part {tokens : List Token} {found : List Datum} {span : Span}
    (h : SpelledIn tokens (.list found span)) : ∀ datum ∈ found, SpelledIn tokens datum := by
  obtain ⟨before, block, behind, item, rfl, hnested, hdatum⟩ := h
  cases item with
  | atom text span | string text span | comment text span => cases hdatum
  | list parts span =>
    obtain ⟨m, bracket, opened, closed, inner, hm, rfl, rfl, hinner⟩ := hnested.exists_list
    cases hdatum
    intro datum hdatum
    refine (spelledIn_of_nested hinner (by omega) datum hdatum).mono
      ⟨before ++ [⟨.opening bracket, opened⟩], ⟨.closing bracket, closed⟩ :: behind, by simp⟩

end Datum

/-! ## Parts of a text that are parsed alone -/

/-- The text at the stretch can be cut out and is parsed alone into one root, which has the content. -/
def Excerpted (source : String) (s : Span) (content : Content) : Prop :=
  ∃ excerpt, (⟨source⟩ : Buffer).slice s.start s.stop = .ok excerpt ∧
    ∀ depth serial, ∃ t root, parse depth serial excerpt = .ok t ∧ t.roots = [root] ∧ t.table.content root = content

theorem exists_root_of_contents {t : Tree} {content : Content} (h : t.contents = [content]) :
    ∃ root, t.roots = [root] ∧ t.table.content root = content := by
  obtain ⟨root, rest, hroots, hcontent, hrest⟩ := List.map_eq_cons_iff.mp h
  obtain rfl := List.map_eq_nil_iff.mp hrest
  exact ⟨root, hroots, hcontent⟩

/-- Text whose tokens spell one datum is parsed into what the datum stands for. -/
theorem exists_parse_of_nested {excerpt : String} {tokens : List Token} {item : Item} {datum : Datum} {d : Draft}
    (htokens : Token.tokenize excerpt = .ok tokens) (hnested : Item.Nested maxNesting tokens [item])
    (hdatum : item.datum? = some datum) (hreads : Reads .expression datum d) (depth serial : Nat) :
    ∃ t, parse depth serial excerpt = .ok t ∧ t.contents = [d.content] := by
  have hdata : Item.data [item] = [datum] := Item.data_of_map_datum? (congrArg (fun found => [found]) hdatum)
  have hdrafts : draftProgram [item] = .ok [d] := by
    rw [draftProgram, hdata]
    exact Datum.draftAll_of_readsAll (.cons hreads (.nil .expression))
  have hpending : Noted [] (CommentPlan.ofItems [item]).2 := CommentPlan.noted_followItem hdatum _
  refine ⟨plantProgram depth serial [item] [d], parse_eq_ok_iff.mpr
    ⟨tokens, [item], [d], htokens, Item.read_eq_ok_iff.mpr hnested, hdrafts, rfl⟩, ?_⟩
  exact contents_plantProgram hpending depth serial [d]

/-- A datum of a text can be cut out of it, and stands alone for what it stands for there. -/
theorem excerpted_of_spelledIn {source : String} {tokens : List Token} {datum : Datum} {d : Draft}
    (htokens : Token.tokenize source = .ok tokens) (hspelled : datum.SpelledIn tokens)
    (hreads : Reads .expression datum d) : Excerpted source datum.span d.content := by
  obtain ⟨before, block, behind, item, rfl, hnested, hdatum⟩ := hspelled
  have htiled := Token.tiled_of_scans (Token.scan_eq_ok_iff.mp htokens)
  have hblock : block <:+: before ++ block ++ behind := ⟨before, behind, rfl⟩
  have hextent := hnested.extent (fun token hmem => (htiled.positions token (hblock.subset hmem)).2.2)
    (htiled.apart.sublist hblock.sublist)
  rw [Item.span_of_datum? hdatum] at hextent
  obtain ⟨excerpt, tokens', hslice, htokens', hlexemes⟩ := Token.exists_slice htokens hextent
  obtain ⟨item', datum', hnested', hdatum', halike⟩ := hnested.exists_alike hdatum hlexemes
  obtain ⟨d', hreads', hcontent⟩ := means_of_alike hreads halike
  refine ⟨excerpt, hslice, fun depth serial => ?_⟩
  obtain ⟨t, hparse, hcontents⟩ := exists_parse_of_nested htokens' hnested' hdatum' hreads' depth serial
  obtain ⟨root, hroots, hroot⟩ := exists_root_of_contents hcontents
  exact ⟨t, root, hparse, hroots, hroot.trans hcontent⟩

/-! ## Comments at the end of a text -/

def Token.ofComment (c : Comment) : Token := ⟨.comment c.text, c.span⟩

/-- The comments that wait behind items are those of the last tokens. -/
theorem Item.Nested.exists_trailing {n : Nat} {tokens : List Token} {items : List Item} (h : Nested n tokens items)
    {cs : List Comment} {progress : CommentPlan.Progress} (hpending : progress.pending = joinAll cs) :
    ∃ trailing, trailing.map Token.ofComment <:+ cs.map Token.ofComment ++ tokens ∧
      (CommentPlan.follow progress items).pending = joinAll trailing := by
  induction h generalizing cs progress with
  | nil =>
    rw [CommentPlan.follow, List.append_nil]
    exact ⟨cs, List.suffix_rfl, hpending⟩
  | comment text span _ ih =>
    have hnoted : (CommentPlan.followItem progress (.comment text span)).pending = joinAll (cs ++ [⟨span, text⟩]) := by
      rw [CommentPlan.followItem, joinAll_concat, ← hpending]
      rfl
    obtain ⟨trailing, hsuffix, htrailing⟩ := ih hnoted
    rw [List.map_append, List.append_assoc] at hsuffix
    rw [CommentPlan.follow]
    exact ⟨trailing, hsuffix, htrailing⟩
  | atom text span _ ih | string text span _ ih =>
    have hnone : (progress.pass span.start).pending = joinAll [] := rfl
    obtain ⟨trailing, hsuffix, htrailing⟩ := ih hnone
    rw [CommentPlan.follow, CommentPlan.followItem]
    exact ⟨trailing, hsuffix.trans ((List.suffix_cons _ _).trans (List.suffix_append _ _)), htrailing⟩
  | @list n inner tokens parts items bracket opened closed _ _ _ ihrest =>
    have hnone : (CommentPlan.followItem progress (.list parts (opened.union closed))).pending = joinAll [] := by
      rw [CommentPlan.followItem]
      rfl
    obtain ⟨trailing, hsuffix, htrailing⟩ := ihrest hnone
    rw [CommentPlan.follow]
    refine ⟨trailing, hsuffix.trans ?_, htrailing⟩
    exact ⟨cs.map Token.ofComment ++ ⟨.opening bracket, opened⟩ :: (inner ++ [⟨.closing bracket, closed⟩]), by simp⟩

theorem noted_joinAll (cs : List Comment) : Noted (cs.map (·.text)) (joinAll cs) := by
  induction cs using List.reverseRecOn with
  | nil => rfl
  | append_singleton cs c ih =>
    rw [List.map_append, joinAll_concat]
    show Noted _ ((CommentPlan.Progress.mk .empty (joinAll cs) none).note c).pending
    exact CommentPlan.noted_note ih c

theorem extent_of_joinAll {cs : List Comment} {c : Comment} (h : joinAll cs = some c)
    (hproper : ∀ c ∈ cs, c.span.start < c.span.stop)
    (hapart : cs.Pairwise fun a b => a.span.stop ≤ b.span.start) : Token.Extent (cs.map Token.ofComment) c.span := by
  refine joinAll_induction (Q := fun cs c => (∀ c ∈ cs, c.span.start < c.span.stop) →
    cs.Pairwise (fun a b => a.span.stop ≤ b.span.start) → Token.Extent (cs.map Token.ofComment) c.span)
    (fun c _ _ => Token.extent_singleton _) (fun cs c d hc hproper hapart => ?_) h hproper hapart
  obtain ⟨hproper, hd⟩ := List.forall_mem_append.mp hproper
  obtain ⟨hapart, -, hbefore⟩ := List.pairwise_append.mp hapart
  obtain ⟨⟨first, hfirst, hstart⟩, last, hlast, hstop⟩ := hc hproper hapart
  have hle : ∀ token ∈ cs.map Token.ofComment, token.span.start ≤ d.span.start ∧ token.span.stop ≤ d.span.stop := by
    intro token hmem
    obtain ⟨e, he, rfl⟩ := List.mem_map.mp hmem
    have hed : e.span.stop ≤ d.span.start := hbefore e he d List.mem_cons_self
    exact ⟨(hproper e he).le.trans hed, hed.trans (hd d List.mem_cons_self).le⟩
  have hfirst' := (hle first (List.mem_of_head? hfirst)).1
  have hlast' := (hle last (List.mem_of_getLast? hlast)).2
  have hunion : c.span.union d.span = ⟨c.span.start, d.span.stop⟩ :=
    Span.union_of_le (hstart ▸ hfirst') (hstop ▸ hlast')
  show Token.Extent _ (c.span.union d.span)
  rw [hunion, List.map_append]
  refine ⟨⟨first, ?_, hstart⟩, Token.ofComment d, ?_, rfl⟩
  · rw [List.head?_append, Option.mem_def.mp hfirst]
    rfl
  · rw [List.map_singleton, List.getLast?_concat]
    rfl

/-- The comments behind the last datum can be cut out of a text, and are read alone as they are there. -/
theorem excerpted_of_trailing {source : String} {tokens : List Token} {items : List Item} {c : Comment}
    (htokens : Token.tokenize source = .ok tokens) (hnested : Item.Nested maxNesting tokens items)
    (hpending : (CommentPlan.ofItems items).2 = some c) : Excerpted source c.span (Draft.ofComment c).content := by
  have hstart : (CommentPlan.Progress.mk .empty none none).pending = joinAll [] := rfl
  obtain ⟨cs, ⟨before, rfl⟩, hjoin⟩ := hnested.exists_trailing hstart
  replace hjoin : joinAll cs = some c := hjoin.symm.trans hpending
  have htiled := Token.tiled_of_scans (Token.scan_eq_ok_iff.mp htokens)
  have hextent : Token.Extent (cs.map Token.ofComment) c.span := by
    refine extent_of_joinAll hjoin (fun d hd => ?_) ?_
    · exact (htiled.positions _ (List.mem_append_right _ (List.mem_map_of_mem hd))).2.2
    · exact List.pairwise_map.mp (List.pairwise_append.mp htiled.apart).2.1
  rw [← List.append_nil (before ++ _)] at htokens
  obtain ⟨excerpt, tokens, hslice, htokens, hlexemes⟩ := Token.exists_slice htokens hextent
  have hcomments : tokens.map (·.lexeme) = (cs.map (·.text)).map Lexeme.comment := by
    rw [hlexemes, List.map_map, List.map_map]
    rfl
  obtain ⟨items, hnested, hdata, hnoted⟩ := nested_comments hcomments
  have hdrafts : draftProgram items = .ok [] := by
    rw [draftProgram, hdata]
    rfl
  refine ⟨excerpt, hslice, fun depth serial => ?_⟩
  have hcontents := contents_plantProgram (hnoted noted_start) depth serial []
  have hlines : Noted (cs.map (·.text)) (some c) := hjoin ▸ noted_joinAll cs
  rw [List.nil_append, programContents, ← hlines] at hcontents
  obtain ⟨root, hroots, hroot⟩ := exists_root_of_contents hcontents
  refine ⟨_, root, parse_eq_ok_iff.mpr ⟨tokens, items, [], htokens, Item.read_eq_ok_iff.mpr hnested, hdrafts, rfl⟩,
    hroots, hroot.trans ?_⟩
  rw [Draft.ofComment, Draft.content_mk]
  rfl

end StructuralEditor.Scheme
