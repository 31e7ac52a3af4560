import StructuralEditor.Proofs.Buffer.Batch
import StructuralEditor.Proofs.Scheme.Lexing

/-!
# Where tokens stand

* `Quoted`, `Unclosed` : what stands between the quotes of a string, and a text in which no quote closes one;
* `Lexeme.Stands` : a lexeme stands in a text as some characters, before the rest of it;
* `Scans` : scanning passes some characters and leaves the rest of a text, with the tokens that it found;
* `Token.scan_append`, `Token.exists_scans` : scanning goes on where it has come to, and comes to the end of the text or
  to a string without an end;
* `Tiled` : the tokens of a text at the positions of a buffer;
* `Token.tokenize_tiled` : what the tokens of a text say about it, and when there are none.
-/

namespace StructuralEditor.Scheme

/-! ## Strings -/

/-- The text can stand between the quotes of a string: a backslash takes the next character along, and no other
quote stands in it. -/
inductive Quoted : List Char → Prop
  | nil : Quoted []
  | plain {text : List Char} (c : Char) (hquote : c ≠ '"') (hslash : c ≠ '\\') (h : Quoted text) : Quoted (c :: text)
  | escaped {text : List Char} (c : Char) (h : Quoted text) : Quoted ('\\' :: c :: text)

/-- No quote in the text closes a string that was opened before it. -/
def Unclosed (text : List Char) : Prop := ∀ body rest, text = body ++ '"' :: rest → ¬ Quoted body

namespace Lexeme

theorem closingQuote?_of_quoted {body : List Char} (h : Quoted body) (rest : List Char) :
    closingQuote? (body ++ '"' :: rest) = some (body.length + 1) := by
  induction h with
  | nil => rfl
  | plain c hquote hslash _ ih =>
    rw [List.cons_append, closingQuote?, ih]
    · rfl
    · exact hquote
    · intro d tail hc
      exact absurd hc hslash
  | escaped c _ ih =>
    rw [List.cons_append, List.cons_append, closingQuote?, ih]
    rfl

/-- The quote that closes a string is the first that no backslash takes along. -/
theorem exists_quoted_of_closingQuote? {text : List Char} {count : Nat} (h : closingQuote? text = some count) :
    ∃ body rest, text = body ++ '"' :: rest ∧ Quoted body ∧ count = body.length + 1 := by
  fun_induction closingQuote? text generalizing count with
  | case1 => cases h
  | case2 rest =>
    cases h
    exact ⟨[], rest, rfl, .nil, rfl⟩
  | case3 c tail ih =>
    obtain ⟨n, hn, rfl⟩ := Option.map_eq_some_iff.mp h
    obtain ⟨body, rest, rfl, hbody, rfl⟩ := ih hn
    exact ⟨'\\' :: c :: body, rest, rfl, .escaped c hbody, rfl⟩
  | case4 c tail hquote hescape ih =>
    obtain ⟨n, hn, rfl⟩ := Option.map_eq_some_iff.mp h
    obtain ⟨body, rest, rfl, hbody, rfl⟩ := ih hn
    refine ⟨c :: body, rest, rfl, .plain c hquote ?_ hbody, rfl⟩
    -- A backslash would have taken the first character of the rest along, and there is one.
    rintro rfl
    rcases body with _ | ⟨d, body⟩
    · exact hescape _ _ rfl rfl
    · exact hescape _ _ rfl rfl

theorem closingQuote?_eq_none_iff {text : List Char} : closingQuote? text = none ↔ Unclosed text := by
  constructor
  · rintro h body rest rfl hbody
    rw [closingQuote?_of_quoted hbody] at h
    cases h
  · intro h
    cases hclosing : closingQuote? text with
    | none => rfl
    | some count =>
      obtain ⟨body, rest, htext, hbody, -⟩ := exists_quoted_of_closingQuote? hclosing
      exact absurd hbody (h body rest htext)

/-! ## Lexemes in a text -/

/-- The lexeme stands in a text as the characters `raw`, before `rest`: a string goes to the quote that closes it, an
atom to the next delimiter, and a comment, which is noted without the blanks at its end, to the end of the line. -/
def Stands : Lexeme → List Char → List Char → Prop
  | opening bracket, raw, _ => raw = [bracket.opener]
  | closing bracket, raw, _ => raw = [bracket.closer]
  | string text, raw, _ => raw = text.toList ∧ ∃ body, raw = '"' :: (body ++ ['"']) ∧ Quoted body
  | atom text, raw, rest =>
    raw = text.toList ∧ raw ≠ [] ∧ (∀ c ∈ raw, isDelimiter c = false) ∧ ∀ c ∈ rest.head?, isDelimiter c = true
  | comment text, raw, rest =>
    Text.trimEnd raw = text.toList ∧ (∃ line, raw = ';' :: line ∧ '\n' ∉ line) ∧ ∀ c ∈ rest.head?, c = '\n'

theorem exists_takeWhile (p : Char → Bool) (text : List Char) :
    ∃ rest, text = text.takeWhile p ++ rest ∧ ∀ c ∈ rest.head?, p c = false := by
  refine ⟨text.dropWhile p, List.takeWhile_append_dropWhile.symm, fun c hc => ?_⟩
  have := List.head?_dropWhile_not p text
  rw [Option.mem_def.mp hc] at this
  simpa using this

theorem takeWhile_of_head {p : Char → Bool} {word rest : List Char} (hword : ∀ c ∈ word, p c = true)
    (hrest : ∀ c ∈ rest.head?, p c = false) : (word ++ rest).takeWhile p = word := by
  rw [List.takeWhile_append_of_pos hword]
  rcases rest with _ | ⟨c, rest⟩
  · simp
  · rw [List.takeWhile_cons_of_neg (by simpa using hrest c rfl), List.append_nil]

theorem stands_of_read? {c : Char} {rest : List Char} {lexeme : Lexeme} {count : Nat} (hc : Text.isBlank c = false)
    (h : read? c rest = some (lexeme, count)) : lexeme.Stands (c :: rest.take count) (rest.drop count) := by
  unfold read? at h
  split at h
  · next hopen =>
    cases h
    rw [hopen]
    rfl
  split at h
  · next hopen =>
    cases h
    rw [hopen]
    rfl
  split at h
  · next hclose =>
    cases h
    rw [hclose]
    rfl
  split at h
  · next hclose =>
    cases h
    rw [hclose]
    rfl
  split at h
  · next hsemicolon =>
    obtain ⟨more, hrest, hmore⟩ := exists_takeWhile (· ≠ '\n') rest
    cases h
    generalize hline : rest.takeWhile (· ≠ '\n') = line at hrest
    subst hrest hsemicolon
    rw [List.take_left, List.drop_left]
    refine ⟨String.toList_ofList.symm, ⟨line, rfl, fun hmem => ?_⟩, fun d hd => by simpa using hmore d hd⟩
    rw [← hline] at hmem
    simpa using List.mem_takeWhile_imp hmem
  split at h
  · next hquote =>
    obtain ⟨n, hn, h⟩ := Option.map_eq_some_iff.mp h
    cases h
    obtain ⟨body, more, rfl, hbody, rfl⟩ := exists_quoted_of_closingQuote? hn
    refine ⟨String.toList_ofList.symm, body, ?_, hbody⟩
    rw [hquote, show body ++ '"' :: more = (body ++ ['"']) ++ more by simp,
      show body.length + 1 = (body ++ ['"']).length by simp, List.take_left]
  · next hround hsquare hround' hsquare' hsemicolon hquote =>
    obtain ⟨more, hrest, hmore⟩ := exists_takeWhile (fun c => !isDelimiter c) rest
    cases h
    generalize hword : rest.takeWhile (fun c => !isDelimiter c) = word at hrest
    subst hrest
    rw [List.take_left, List.drop_left]
    refine ⟨String.toList_ofList.symm, List.cons_ne_nil _ _, fun d hd => ?_, fun d hd => by simpa using hmore d hd⟩
    rcases List.mem_cons.mp hd with rfl | hd
    · exact isDelimiter_eq_false_iff.mpr ⟨hc, hround, hround', hsquare, hsquare', hquote, hsemicolon⟩
    · rw [← hword] at hd
      simpa using List.mem_takeWhile_imp hd

theorem read?_of_stands {lexeme : Lexeme} {raw rest : List Char} (h : lexeme.Stands raw rest) :
    ∃ c tail, raw = c :: tail ∧ Text.isBlank c = false ∧ read? c (tail ++ rest) = some (lexeme, tail.length) := by
  cases lexeme with
  | opening bracket => cases bracket <;> exact ⟨_, [], h, by decide, rfl⟩
  | closing bracket => cases bracket <;> exact ⟨_, [], h, by decide, rfl⟩
  | string text =>
    obtain ⟨htext, body, rfl, hbody⟩ := h
    refine ⟨'"', body ++ ['"'], rfl, by decide, ?_⟩
    have hread : read? '"' (body ++ ['"'] ++ rest) = (closingQuote? (body ++ ['"'] ++ rest)).map fun count =>
        (string (String.ofList ('"' :: (body ++ ['"'] ++ rest).take count)), count) := rfl
    have hclosing : closingQuote? (body ++ ['"'] ++ rest) = some (body ++ ['"']).length := by
      rw [List.append_assoc, List.singleton_append, closingQuote?_of_quoted hbody, List.length_append,
        List.length_singleton]
    rw [hread, hclosing, Option.map_some, List.take_left, htext, String.ofList_toList]
  | atom text =>
    obtain ⟨rfl, hne, hword, hends⟩ := h
    obtain ⟨c, tail, htext⟩ := List.exists_cons_of_ne_nil hne
    rw [htext] at hword
    obtain ⟨hc, htail⟩ := List.forall_mem_cons.mp hword
    obtain ⟨hblank, hround, hround', hsquare, hsquare', hquote, hsemicolon⟩ := isDelimiter_eq_false_iff.mp hc
    have htake : (tail ++ rest).takeWhile (fun c => !isDelimiter c) = tail :=
      takeWhile_of_head (by simpa using htail) (by simpa using hends)
    refine ⟨c, tail, htext, hblank, ?_⟩
    simp only [read?, if_neg hround, if_neg hsquare, if_neg hround', if_neg hsquare', if_neg hsemicolon,
      if_neg hquote, htake, ← htext, String.ofList_toList]
  | comment text =>
    obtain ⟨htext, ⟨line, rfl, hline⟩, hends⟩ := h
    have htake : (line ++ rest).takeWhile (· ≠ '\n') = line := by
      refine takeWhile_of_head (fun c hc => ?_) (by simpa using hends)
      exact decide_eq_true fun hnewline => hline (hnewline ▸ hc)
    have hread : read? ';' (line ++ rest) =
        some (comment (String.ofList (Text.trimEnd (';' :: (line ++ rest).takeWhile (· ≠ '\n')))),
          ((line ++ rest).takeWhile (· ≠ '\n')).length) := rfl
    refine ⟨';', line, rfl, by decide, ?_⟩
    rw [hread, htake, htext, String.ofList_toList]

theorem read?_eq_none_iff {c : Char} {rest : List Char} : read? c rest = none ↔ c = '"' ∧ Unclosed rest := by
  rw [← closingQuote?_eq_none_iff]
  unfold read?
  split_ifs <;> simp_all

theorem Stands.ne_nil {lexeme : Lexeme} {raw rest : List Char} (h : lexeme.Stands raw rest) : raw ≠ [] := by
  obtain ⟨c, tail, rfl, -⟩ := read?_of_stands h
  exact List.cons_ne_nil c tail

end Lexeme

/-! ## Scanning step by step -/

/-- Scanning, started at `p`, passes these characters when `rest` stands behind them: blanks, and lexemes, each of them
a token. -/
inductive Scans : Position → List Char → List Token → List Char → Prop
  | done (p : Position) (rest : List Char) : Scans p [] [] rest
  | blank {p : Position} {passed rest : List Char} {tokens : List Token} (c : Char) (hc : Text.isBlank c = true)
    (h : Scans (p.advance c) passed tokens rest) : Scans p (c :: passed) tokens rest
  | lexeme {p : Position} {raw passed rest : List Char} {tokens : List Token} (lexeme : Lexeme)
    (hstands : lexeme.Stands raw (passed ++ rest)) (h : Scans (p.after raw) passed tokens rest) :
    Scans p (raw ++ passed) (⟨lexeme, ⟨p, p.after raw⟩⟩ :: tokens) rest

namespace Token

theorem scan_nil (p : Position) : scan p [] = .ok [] := by
  unfold scan
  rfl

theorem scan_blank (p : Position) {c : Char} (hc : Text.isBlank c = true) (rest : List Char) :
    scan p (c :: rest) = scan (p.advance c) rest := by
  conv => lhs; unfold scan
  exact if_pos hc

theorem scan_unclosed (p : Position) {text : List Char} (h : Unclosed text) :
    scan p ('"' :: text) = .error (ParseError.foundAt p .unterminatedString) := by
  unfold scan
  rw [if_neg (by decide), Lexeme.read?_eq_none_iff.mpr ⟨rfl, h⟩]

theorem scan_stands (p : Position) {lexeme : Lexeme} {raw rest : List Char} (h : lexeme.Stands raw rest) :
    scan p (raw ++ rest) = (⟨lexeme, ⟨p, p.after raw⟩⟩ :: ·) <$> scan (p.after raw) rest := by
  obtain ⟨c, tail, rfl, hc, hread⟩ := Lexeme.read?_of_stands h
  rw [List.cons_append]
  conv => lhs; unfold scan
  simp only [hc, hread, List.take_left, List.drop_left]
  rfl

theorem scan_append {p : Position} {passed rest : List Char} {tokens : List Token} (h : Scans p passed tokens rest) :
    scan p (passed ++ rest) = (tokens ++ ·) <$> scan (p.after passed) rest := by
  induction h with
  | done p rest => exact (id_map _).symm
  | blank c hc _ ih =>
    rw [List.cons_append, scan_blank _ hc, ih]
    rfl
  | @lexeme p raw passed rest tokens lexeme hstands _ ih =>
    rw [List.append_assoc, scan_stands p hstands, ih, Position.after_append]
    exact (comp_map ..).symm

/-- Scanning comes to the end of the text, or to a string without an end. -/
theorem exists_scans (p : Position) (text : List Char) : ∃ passed tokens rest, text = passed ++ rest ∧
    Scans p passed tokens rest ∧ (rest = [] ∨ ∃ more, rest = '"' :: more ∧ Unclosed more) := by
  fun_induction scan p text with
  | case1 p => exact ⟨[], [], [], rfl, .done p [], .inl rfl⟩
  | case2 p c text hblank ih =>
    obtain ⟨passed, tokens, rest, rfl, hscans, hrest⟩ := ih
    exact ⟨c :: passed, tokens, rest, rfl, .blank c hblank hscans, hrest⟩
  | case3 p c text hblank hnone =>
    obtain ⟨rfl, hunclosed⟩ := Lexeme.read?_eq_none_iff.mp hnone
    exact ⟨[], [], '"' :: text, rfl, .done p _, .inr ⟨text, rfl, hunclosed⟩⟩
  | case4 p c text hblank lexeme count hread stop ih =>
    obtain ⟨passed, tokens, rest, hdrop, hscans, hrest⟩ := ih
    have hstands := Lexeme.stands_of_read? (by simpa using hblank) hread
    rw [hdrop] at hstands
    refine ⟨(c :: text.take count) ++ passed, _, rest, ?_, .lexeme lexeme hstands hscans, hrest⟩
    rw [List.append_assoc, ← hdrop, List.cons_append, List.take_append_drop]

theorem scan_eq_ok_iff {p : Position} {text : List Char} {tokens : List Token} :
    scan p text = .ok tokens ↔ Scans p text tokens [] := by
  constructor
  · intro h
    obtain ⟨passed, found, rest, rfl, hscans, rfl | ⟨more, rfl, hunclosed⟩⟩ := exists_scans p text
    · rw [scan_append hscans, scan_nil] at h
      obtain rfl : found ++ [] = tokens := Except.ok.inj h
      rwa [List.append_nil, List.append_nil]
    · rw [scan_append hscans, scan_unclosed _ hunclosed] at h
      cases h
  · intro h
    have hscan := scan_append h
    rw [scan_nil, List.append_nil] at hscan
    rw [hscan]
    exact congrArg Except.ok (List.append_nil tokens)

theorem scan_eq_error_iff {p : Position} {text : List Char} {e : ParseError} :
    scan p text = .error e ↔ ∃ passed tokens rest, text = passed ++ '"' :: rest ∧
      Scans p passed tokens ('"' :: rest) ∧ Unclosed rest ∧
      e = ParseError.foundAt (p.after passed) .unterminatedString := by
  constructor
  · intro h
    obtain ⟨passed, found, rest, rfl, hscans, rfl | ⟨more, rfl, hunclosed⟩⟩ := exists_scans p text
    · rw [scan_append hscans, scan_nil] at h
      cases h
    · refine ⟨passed, found, more, rfl, hscans, hunclosed, ?_⟩
      rw [scan_append hscans, scan_unclosed _ hunclosed] at h
      exact (Except.error.inj h).symm
  · rintro ⟨passed, tokens, rest, rfl, hscans, hunclosed, rfl⟩
    rw [scan_append hscans, scan_unclosed _ hunclosed]
    rfl

end Token

/-! ## Spans -/

namespace Scans

variable {p : Position} {passed rest : List Char} {tokens : List Token}

theorem exists_stands (h : Scans p passed tokens rest) : ∀ token ∈ tokens, ∃ before raw behind,
    passed = before ++ raw ++ behind ∧ token.span = ⟨p.after before, p.after (before ++ raw)⟩ ∧
      token.lexeme.Stands raw (behind ++ rest) := by
  induction h with
  | done p rest => simp
  | blank c hc _ ih =>
    intro token hmem
    obtain ⟨before, raw, behind, rfl, hspan, hstands⟩ := ih token hmem
    exact ⟨c :: before, raw, behind, rfl, hspan, hstands⟩
  | @lexeme p first passed rest tokens lexeme hstands _ ih =>
    intro token hmem
    rcases List.mem_cons.mp hmem with rfl | hmem
    · exact ⟨[], first, passed, rfl, rfl, hstands⟩
    · obtain ⟨before, raw, behind, rfl, hspan, hstands⟩ := ih token hmem
      refine ⟨first ++ before, raw, behind, by simp, ?_, hstands⟩
      rw [List.append_assoc, Position.after_append, Position.after_append]
      exact hspan

theorem le_start (h : Scans p passed tokens rest) : ∀ token ∈ tokens, p ≤ token.span.start := by
  intro token hmem
  obtain ⟨before, raw, behind, -, hspan, -⟩ := h.exists_stands token hmem
  rw [hspan]
  exact Position.le_after p before

theorem pairwise (h : Scans p passed tokens rest) : tokens.Pairwise fun a b => a.span.stop ≤ b.span.start := by
  induction h with
  | done p rest => exact .nil
  | blank c hc _ ih => exact ih
  | lexeme lexeme hstands h ih => exact .cons h.le_start ih

theorem isBlank_of_outside (h : Scans p passed tokens rest) {before behind : List Char} {c : Char}
    (hpassed : passed = before ++ c :: behind)
    (houtside : ∀ token ∈ tokens, ¬ (token.span.start ≤ p.after before ∧ p.after before < token.span.stop)) :
    Text.isBlank c = true := by
  induction h generalizing before with
  | done p rest => simp at hpassed
  | blank d hd _ ih =>
    rcases before with _ | ⟨b, before⟩
    · cases hpassed
      exact hd
    · cases hpassed
      exact ih rfl houtside
  | @lexeme p raw passed rest tokens lexeme hstands _ ih =>
    obtain ⟨hfirst, hrest⟩ := List.forall_mem_cons.mp houtside
    rcases List.append_eq_append_iff.mp hpassed with ⟨middle, rfl, hmiddle⟩ | ⟨middle, rfl, hmiddle⟩
    · rw [Position.after_append] at hrest
      exact ih hmiddle hrest
    · rcases middle with _ | ⟨d, middle⟩
      · rw [List.append_nil] at ih
        have hpassed' : passed = [] ++ c :: behind := hmiddle.symm
        exact ih hpassed' hrest
      · -- The character is one of the lexeme.
        refine absurd ⟨Position.le_after p before, ?_⟩ hfirst
        rw [Position.after_append]
        exact Position.lt_after _ (List.cons_ne_nil d middle)

end Scans

/-- The lexeme is what a stretch of text says: itself, or a comment with blanks behind it. -/
def Lexeme.SaidBy (raw : String) : Lexeme → Prop
  | comment text => Text.trimEnd raw.toList = text.toList
  | lexeme => raw = lexeme.text

/-- The tokens are stretches of the text in document order, and nothing but blanks stands outside them. -/
structure Tiled (source : String) (tokens : List Token) : Prop where
  positions : ∀ token ∈ tokens, (⟨source⟩ : Buffer).HasPosition token.span.start ∧
    (⟨source⟩ : Buffer).HasPosition token.span.stop ∧ token.span.start < token.span.stop
  slices : ∀ token ∈ tokens, ∃ raw, (⟨source⟩ : Buffer).slice token.span.start token.span.stop = .ok raw ∧
    token.lexeme.SaidBy raw
  apart : tokens.Pairwise fun a b => a.span.stop ≤ b.span.start
  blanks : ∀ before c behind, source.toList = before ++ c :: behind →
    (∀ token ∈ tokens, ¬ (token.span.start ≤ Position.zero.after before ∧
      Position.zero.after before < token.span.stop)) → Text.isBlank c = true

theorem Lexeme.Stands.saidBy {lexeme : Lexeme} {raw rest : List Char} (h : lexeme.Stands raw rest) :
    lexeme.SaidBy (String.ofList raw) := by
  cases lexeme with
  | opening bracket | closing bracket =>
    obtain rfl := h
    rfl
  | string text | atom text =>
    obtain ⟨rfl, -⟩ := h
    exact String.ofList_toList
  | comment text =>
    show Text.trimEnd (String.ofList raw).toList = text.toList
    rw [String.toList_ofList]
    exact h.1

namespace Token

theorem tiled_of_scans {source : String} {tokens : List Token} (h : Scans Position.zero source.toList tokens []) :
    Tiled source tokens where
  positions := by
    intro token hmem
    obtain ⟨before, raw, behind, hsource, hspan, hstands⟩ := h.exists_stands token hmem
    rw [hspan]
    refine ⟨Buffer.hasPosition_after (hsource.trans (List.append_assoc ..)), Buffer.hasPosition_after hsource, ?_⟩
    show Position.zero.after before < Position.zero.after (before ++ raw)
    rw [Position.after_append]
    exact Position.lt_after _ hstands.ne_nil
  slices := by
    intro token hmem
    obtain ⟨before, raw, behind, hsource, hspan, hstands⟩ := h.exists_stands token hmem
    rw [hspan]
    exact ⟨String.ofList raw, Buffer.slice_after hsource, hstands.saidBy⟩
  apart := h.pairwise
  blanks := fun _ _ _ hsource houtside => h.isBlank_of_outside hsource houtside

/-- The tokens of a text are those that scanning finds up to its end. They are stretches of it in document order, with
the texts that stand there, and outside them are only blanks. A text has no tokens just if scanning comes to a string
that no quote closes, which is then the fault. -/
theorem tokenize_tiled (source : String) :
    (∀ tokens, tokenize source = .ok tokens ↔ Scans Position.zero source.toList tokens []) ∧
    (∀ tokens, tokenize source = .ok tokens → Tiled source tokens) ∧
    ∀ e, tokenize source = .error e ↔ ∃ passed tokens rest, source.toList = passed ++ '"' :: rest ∧
      Scans Position.zero passed tokens ('"' :: rest) ∧ Unclosed rest ∧
      e = ParseError.foundAt (Position.zero.after passed) .unterminatedString :=
  ⟨fun _ => scan_eq_ok_iff, fun _ h => tiled_of_scans (scan_eq_ok_iff.mp h), fun _ => scan_eq_error_iff⟩

/-- A string over two lines with escapes in it, and a comment with blanks behind it; a quote behind a backslash does not
close a string. -/
theorem tokenize_tiled_lines :
    (∃ tokens, tokenize "(λ \"a\\\"\n\") ;é \u0085\nx" = .ok tokens ∧ tokens.length = 6 ∧
      Tiled "(λ \"a\\\"\n\") ;é \u0085\nx" tokens) ∧
    ∃ e, tokenize "a\n\"b\\\"" = .error e ∧ e.position = some ⟨1, 0⟩ ∧
      ∃ passed tokens rest, "a\n\"b\\\"".toList = passed ++ '"' :: rest ∧
        Scans Position.zero passed tokens ('"' :: rest) ∧ Unclosed rest := by
  constructor
  · have hlength : ∃ tokens ∈ (tokenize "(λ \"a\\\"\n\") ;é \u0085\nx").toOption, tokens.length = 6 := by decide +kernel
    obtain ⟨tokens, htokens, hlength⟩ := hlength
    have htokens := mem_toOption_iff.mp htokens
    exact ⟨tokens, htokens, hlength, (tokenize_tiled _).2.1 tokens htokens⟩
  · have herror : tokenize "a\n\"b\\\"" = .error (ParseError.foundAt ⟨1, 0⟩ .unterminatedString) := by decide +kernel
    obtain ⟨passed, tokens, rest, htext, hscans, hunclosed, -⟩ := ((tokenize_tiled _).2.2 _).mp herror
    exact ⟨_, herror, rfl, passed, tokens, rest, htext, hscans, hunclosed⟩

end Token

end StructuralEditor.Scheme
