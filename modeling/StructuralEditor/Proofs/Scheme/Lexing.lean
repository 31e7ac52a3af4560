import Mathlib.Data.List.DropRight
import StructuralEditor.Proofs.Scheme.Reading

/-!
# Lexemes of a text

* `Position.Reaches` : the positions that beginnings of a text lead to; `Token.reaches_of_scan`,
  `Token.failsWith_scan` : tokens and faults stand at such positions;
* `Lexeme.Valid`, `Lexeme.Ends` : what a lexeme looks like, and what may follow it;
* `Written` : the lexemes stand in the text, with blanks between them;
* `Token.valid_of_scan`, `Token.scan_of_written` : scanning finds valid lexemes, and all that are written;
* `Lexeme.SeparatedBy`, `Lexeme.spaced` : lexemes with other blanks between them;
* `Token.tokenize_spaced` : the tokens of a text survive that.
-/

namespace StructuralEditor

/-- Some beginning of the text, read at `p`, leads to `q`. -/
def Position.Reaches (p : Position) (text : List Char) (q : Position) : Prop :=
  ∃ beginning, beginning <+: text ∧ p.after beginning = q

theorem Position.reaches_self (p : Position) (text : List Char) : p.Reaches text p := ⟨[], List.nil_prefix, rfl⟩

theorem Position.Reaches.append {p q : Position} {text : List Char} (first : List Char)
    (h : (p.after first).Reaches text q) : p.Reaches (first ++ text) q := by
  obtain ⟨beginning, hpre, hq⟩ := h
  exact ⟨first ++ beginning, (List.prefix_append_right_inj first).mpr hpre, by rw [after_append, hq]⟩

namespace Scheme

namespace Token

/-! ## Positions of tokens -/

theorem reaches_of_scan {p : Position} {text : List Char} {tokens : List Token} (h : scan p text = .ok tokens) :
    ∀ token ∈ tokens, p.Reaches text token.span.start := by
  fun_induction scan p text generalizing tokens with
  | case1 p =>
    cases h
    simp
  | case2 p c rest hblank ih => exact fun token hmem => (ih h token hmem).append [c]
  | case3 p c rest hblank hnone => cases h
  | case4 =>
    rename_i p c rest hblank lexeme count hread stop ih
    obtain ⟨others, hothers, h⟩ := ok_bind_iff.mp h
    obtain rfl := ok_pure_iff.mp h
    refine List.forall_mem_cons.mpr ⟨p.reaches_self _, fun token hmem => ?_⟩
    have hmore := (ih hothers token hmem).append (c :: rest.take count)
    rwa [List.cons_append, List.take_append_drop] at hmore

theorem failsWith_scan (p : Position) (text : List Char) :
    FailsWith (ParseError.At (p.Reaches text)) (scan p text) := by
  fun_induction scan p text with
  | case1 p => exact .ok _
  | case2 p c rest hblank ih =>
    intro e he
    obtain ⟨q, hq, hreach⟩ := ih e he
    exact ⟨q, hq, hreach.append [c]⟩
  | case3 p c rest hblank hnone => exact .error (ParseError.at_foundAt (p.reaches_self _) _)
  | case4 p c rest hblank lexeme count hread stop ih =>
    refine FailsWith.bind (fun e he => ?_) fun _ _ => .ok _
    obtain ⟨q, hq, hreach⟩ := ih e he
    have hmore := hreach.append (c :: rest.take count)
    rw [List.cons_append, List.take_append_drop] at hmore
    exact ⟨q, hq, hmore⟩

end Token

/-! ## Valid lexemes -/

namespace Lexeme

/-- The lexeme is one that can be found in a text: a string ends with the quote that closes it, an atom is a word
without delimiters, and a comment is a line without blanks at its end. -/
def Valid : Lexeme → Prop
  | opening _ | closing _ => True
  | string text => ∃ body, text.toList = '"' :: body ∧ closingQuote? body = some body.length
  | atom text => text.toList ≠ [] ∧ ∀ c ∈ text.toList, isDelimiter c = false
  | comment text => ∃ body, text.toList = ';' :: body ∧ '\n' ∉ body ∧ Text.trimEnd text.toList = text.toList

/-- What may follow the lexeme: an atom goes on to the next delimiter, and a comment to the end of the line. -/
def Ends : Lexeme → List Char → Prop
  | atom _, rest => ∀ c ∈ rest.head?, isDelimiter c = true
  | comment _, rest => ∀ c ∈ rest.takeWhile (· ≠ '\n'), Text.isBlank c = true
  | _, _ => True

theorem closingQuote?_append {body : List Char} {count : Nat} (h : closingQuote? body = some count)
    (rest : List Char) : closingQuote? (body ++ rest) = some count := by
  fun_induction closingQuote? body generalizing count with
  | case1 => cases h
  | case2 tail => exact h
  | case3 c tail ih =>
    obtain ⟨n, hn, rfl⟩ := Option.map_eq_some_iff.mp h
    rw [List.cons_append, List.cons_append, closingQuote?, ih hn]
    rfl
  | case4 c tail hquote hescape ih =>
    obtain ⟨n, hn, rfl⟩ := Option.map_eq_some_iff.mp h
    rw [List.cons_append, closingQuote?, ih hn]
    · rfl
    · exact hquote
    · rintro d tail' rfl htail
      cases tail with
      | nil => cases hn
      | cons d tail => exact hescape d tail rfl rfl

theorem closingQuote?_take {rest : List Char} {count : Nat} (h : closingQuote? rest = some count) :
    count ≤ rest.length ∧ closingQuote? (rest.take count) = some count := by
  fun_induction closingQuote? rest generalizing count with
  | case1 => cases h
  | case2 tail =>
    cases h
    exact ⟨by simp, rfl⟩
  | case3 c tail ih =>
    obtain ⟨n, hn, rfl⟩ := Option.map_eq_some_iff.mp h
    obtain ⟨hle, htake⟩ := ih hn
    refine ⟨by simpa using hle, ?_⟩
    rw [List.take_succ_cons, List.take_succ_cons, closingQuote?, htake]
    rfl
  | case4 c tail hquote hescape ih =>
    obtain ⟨n, hn, rfl⟩ := Option.map_eq_some_iff.mp h
    obtain ⟨hle, htake⟩ := ih hn
    refine ⟨by simpa using hle, ?_⟩
    rw [List.take_succ_cons, closingQuote?, htake]
    · rfl
    · exact hquote
    · rintro d tail' rfl htail
      cases tail with
      | nil => cases hn
      | cons d tail => exact hescape d tail rfl rfl

theorem isDelimiter_eq_false_iff {c : Char} : isDelimiter c = false ↔
    Text.isBlank c = false ∧ c ≠ '(' ∧ c ≠ ')' ∧ c ≠ '[' ∧ c ≠ ']' ∧ c ≠ '"' ∧ c ≠ ';' := by
  simp [isDelimiter, and_assoc]

theorem isDelimiter_of_isBlank {c : Char} (h : Text.isBlank c = true) : isDelimiter c = true := by
  simp [isDelimiter, h]

theorem valid_comment {line : List Char} (h : '\n' ∉ line) :
    (comment (String.ofList (Text.trimEnd (';' :: line)))).Valid := by
  have hprefix := List.rdropWhile_prefix Text.isBlank (';' :: line)
  have hne : List.rdropWhile Text.isBlank (';' :: line) ≠ [] := by
    rw [Ne, List.rdropWhile_eq_nil_iff]
    intro hall
    exact absurd (hall ';' List.mem_cons_self) (by decide)
  obtain ⟨c, body, hbody⟩ := List.exists_cons_of_ne_nil hne
  rw [hbody] at hprefix
  obtain ⟨rfl, hbegin⟩ := List.cons_prefix_cons.mp hprefix
  refine ⟨body, by rw [String.toList_ofList]; exact hbody, fun hmem => h (hbegin.subset hmem), ?_⟩
  rw [String.toList_ofList]
  exact List.rdropWhile_idempotent Text.isBlank (';' :: line)

/-- What is read at a character that is not blank is a valid lexeme. -/
theorem valid_of_read? {c : Char} {rest : List Char} {lexeme : Lexeme} {count : Nat} (hc : Text.isBlank c = false)
    (h : read? c rest = some (lexeme, count)) : lexeme.Valid := by
  unfold read? at h
  split at h
  · cases h
    trivial
  split at h
  · cases h
    trivial
  split at h
  · cases h
    trivial
  split at h
  · cases h
    trivial
  split at h
  · next hsemicolon =>
    cases h
    subst hsemicolon
    refine valid_comment fun hmem => ?_
    simpa using List.mem_takeWhile_imp hmem
  split at h
  · next hquote =>
    obtain ⟨count', hcount, h⟩ := Option.map_eq_some_iff.mp h
    cases h
    subst hquote
    obtain ⟨hle, htake⟩ := closingQuote?_take hcount
    refine ⟨rest.take count, String.toList_ofList, ?_⟩
    rw [htake, List.length_take_of_le hle]
  · next hround hsquare hround' hsquare' hsemicolon hquote =>
    cases h
    refine ⟨by simp, fun d hd => ?_⟩
    rw [String.toList_ofList] at hd
    rcases List.mem_cons.mp hd with rfl | hd
    · exact isDelimiter_eq_false_iff.mpr ⟨hc, hround, hround', hsquare, hsquare', hquote, hsemicolon⟩
    · simpa using List.mem_takeWhile_imp hd

/-- A valid lexeme that ends where it stands is read there, with the blanks behind a comment. -/
theorem read?_of_valid {lexeme : Lexeme} {rest : List Char} (hvalid : lexeme.Valid) (hends : lexeme.Ends rest) :
    ∃ c tail blanks more, lexeme.text.toList = c :: tail ∧ rest = blanks ++ more ∧ Text.isBlank c = false ∧
      (∀ d ∈ blanks, Text.isBlank d = true) ∧ read? c (tail ++ rest) = some (lexeme, (tail ++ blanks).length) := by
  cases lexeme with
  | opening bracket => cases bracket <;> exact ⟨_, [], [], rest, rfl, rfl, by decide, by simp, rfl⟩
  | closing bracket => cases bracket <;> exact ⟨_, [], [], rest, rfl, rfl, by decide, by simp, rfl⟩
  | string text =>
    obtain ⟨body, htext, hquote⟩ := hvalid
    refine ⟨'"', body, [], rest, htext, rfl, by decide, by simp, ?_⟩
    have hread : read? '"' (body ++ rest) = (closingQuote? (body ++ rest)).map fun count =>
        (string (String.ofList ('"' :: (body ++ rest).take count)), count) := rfl
    rw [hread, closingQuote?_append hquote, Option.map_some, List.take_left, ← htext, String.ofList_toList,
      List.append_nil]
  | atom text =>
    obtain ⟨hne, hword⟩ := hvalid
    obtain ⟨c, tail, htext⟩ := List.exists_cons_of_ne_nil hne
    rw [htext] at hword
    obtain ⟨hc, htail⟩ := List.forall_mem_cons.mp hword
    obtain ⟨hblank, hround, hround', hsquare, hsquare', hquote, hsemicolon⟩ := isDelimiter_eq_false_iff.mp hc
    refine ⟨c, tail, [], rest, htext, rfl, hblank, by simp, ?_⟩
    have hstop : rest.takeWhile (fun c => !isDelimiter c) = [] := by
      cases rest with
      | nil => rfl
      | cons d rest => rw [List.takeWhile_cons_of_neg (by simpa using hends d rfl)]
    have htake : (tail ++ rest).takeWhile (fun c => !isDelimiter c) = tail := by
      rw [List.takeWhile_append_of_pos (by simpa using htail), hstop, List.append_nil]
    simp only [read?, if_neg hround, if_neg hsquare, if_neg hround', if_neg hsquare', if_neg hsemicolon,
      if_neg hquote, htake, ← htext, String.ofList_toList, List.append_nil]
  | comment text =>
    obtain ⟨body, htext, hline, htrim⟩ := hvalid
    refine ⟨';', body, rest.takeWhile (· ≠ '\n'), rest.dropWhile (· ≠ '\n'), htext, ?_, by decide, hends, ?_⟩
    · rw [List.takeWhile_append_dropWhile]
    · have htake : (body ++ rest).takeWhile (· ≠ '\n') = body ++ rest.takeWhile (· ≠ '\n') := by
        refine List.takeWhile_append_of_pos fun c hc => ?_
        exact decide_eq_true fun hnewline => hline (hnewline ▸ hc)
      have hblanks : Text.trimEnd (';' :: (body ++ rest.takeWhile (· ≠ '\n'))) = text.toList := by
        rw [← List.cons_append, ← htext, Text.trimEnd, List.reverse_append,
          List.dropWhile_append_of_pos fun c hc => hends c (List.mem_reverse.mp hc)]
        exact htrim
      have hread : read? ';' (body ++ rest) =
          some (comment (String.ofList (Text.trimEnd (';' :: (body ++ rest).takeWhile (· ≠ '\n')))),
            ((body ++ rest).takeWhile (· ≠ '\n')).length) := rfl
      rw [hread, htake, hblanks, String.ofList_toList]

end Lexeme

/-! ## Written lexemes -/

/-- The lexemes stand in the text in this order, with blanks between them. -/
inductive Written : List Lexeme → List Char → Prop
  | nil : Written [] []
  | blank {lexemes : List Lexeme} {text : List Char} (c : Char) (hc : Text.isBlank c = true)
    (hrest : Written lexemes text) : Written lexemes (c :: text)
  | lexeme {lexemes : List Lexeme} {text : List Char} (lexeme : Lexeme) (hvalid : lexeme.Valid)
    (hends : lexeme.Ends text) (hrest : Written lexemes text) :
    Written (lexeme :: lexemes) (lexeme.text.toList ++ text)

theorem Written.of_blank {lexemes : List Lexeme} {c : Char} {text : List Char} (h : Written lexemes (c :: text))
    (hc : Text.isBlank c = true) : Written lexemes text := by
  generalize htext : c :: text = whole at h
  cases h with
  | nil => cases htext
  | blank d hd hrest =>
    cases htext
    exact hrest
  | @lexeme lexemes rest lexeme hvalid hends hrest =>
    obtain ⟨d, tail, -, -, hstart, -, hd, -, -⟩ := Lexeme.read?_of_valid hvalid hends
    rw [hstart, List.cons_append] at htext
    cases htext
    rw [hc] at hd
    cases hd

theorem Written.of_blanks {lexemes : List Lexeme} {blanks text : List Char} (h : Written lexemes (blanks ++ text))
    (hblanks : ∀ c ∈ blanks, Text.isBlank c = true) : Written lexemes text := by
  induction blanks with
  | nil => exact h
  | cons c blanks ih =>
    obtain ⟨hc, hrest⟩ := List.forall_mem_cons.mp hblanks
    exact ih (h.of_blank hc) hrest

namespace Token

theorem valid_of_scan {p : Position} {text : List Char} {tokens : List Token} (h : scan p text = .ok tokens) :
    ∀ token ∈ tokens, token.lexeme.Valid := by
  fun_induction scan p text generalizing tokens with
  | case1 p =>
    cases h
    simp
  | case2 p c rest hblank ih => exact ih h
  | case3 p c rest hblank hnone => cases h
  | case4 =>
    rename_i p c rest hblank lexeme count hread stop ih
    obtain ⟨others, hothers, h⟩ := ok_bind_iff.mp h
    obtain rfl := ok_pure_iff.mp h
    exact List.forall_mem_cons.mpr ⟨Lexeme.valid_of_read? (by simpa using hblank) hread, ih hothers⟩

/-- Scanning finds the lexemes that are written, wherever the text starts. -/
theorem scan_of_written {lexemes : List Lexeme} {text : List Char} (h : Written lexemes text) (p : Position) :
    ∃ tokens, scan p text = .ok tokens ∧ tokens.map (·.lexeme) = lexemes := by
  -- The blanks behind a comment are read along with it, so the induction is on the length of the text.
  induction hlength : text.length using Nat.strongRecOn generalizing lexemes text p with
  | ind length ih =>
    subst hlength
    cases h with
    | nil => exact ⟨[], by unfold scan; rfl, rfl⟩
    | blank c hc hrest =>
      unfold scan
      rw [if_pos hc]
      exact ih _ (by simp) hrest _ rfl
    | @lexeme lexemes rest lexeme hvalid hends hrest =>
      obtain ⟨c, tail, blanks, more, htext, rfl, hc, hblanks, hread⟩ := Lexeme.read?_of_valid hvalid hends
      obtain ⟨tokens, hscan, hlexemes⟩ := ih more.length (by rw [htext]; simp; omega) (hrest.of_blanks hblanks)
        (p.after (c :: (tail ++ blanks))) rfl
      have htake : (tail ++ (blanks ++ more)).take (tail ++ blanks).length = tail ++ blanks := by
        rw [← List.append_assoc, List.take_left]
      have hdrop : (tail ++ (blanks ++ more)).drop (tail ++ blanks).length = more := by
        rw [← List.append_assoc, List.drop_left]
      refine ⟨⟨lexeme, ⟨p, p.after (c :: (tail ++ blanks))⟩⟩ :: tokens, ?_, by rw [List.map_cons, hlexemes]⟩
      rw [htext, List.cons_append]
      unfold scan
      simp only [hc, hread, htake, hdrop, hscan]
      rfl

end Token

/-! ## Other blanks -/

namespace Lexeme

/-- What may stand between the lexeme and the next: blanks, one at least, and behind a comment a newline among them. -/
structure SeparatedBy (lexeme : Lexeme) (separator : String) : Prop where
  ne_empty : separator ≠ ""
  blank : ∀ c ∈ separator.toList, Text.isBlank c = true
  newline : ∀ text, lexeme = comment text → '\n' ∈ separator.toList

/-- The texts of the lexemes in order, each with a separator behind it as long as there is one. -/
def spaced : List Lexeme → List String → String
  | [], _ => ""
  | lexeme :: rest, separators => lexeme.text ++ separators.headD "" ++ spaced rest separators.tail

theorem takeWhile_append_of_newline {line : List Char} (h : '\n' ∈ line) (rest : List Char) :
    (line ++ rest).takeWhile (· ≠ '\n') = line.takeWhile (· ≠ '\n') := by
  induction line with
  | nil => cases h
  | cons c line ih =>
    by_cases hc : c = '\n'
    · simp [hc]
    · have hline := ih ((List.mem_cons.mp h).resolve_left (Ne.symm hc))
      rw [List.cons_append, List.takeWhile_cons, List.takeWhile_cons, hline]

theorem SeparatedBy.ends {lexeme : Lexeme} {separator : String} (h : lexeme.SeparatedBy separator) (rest : List Char) :
    lexeme.Ends (separator.toList ++ rest) := by
  cases lexeme with
  | opening bracket | closing bracket | string text => trivial
  | atom text =>
    have hne : separator.toList ≠ [] := fun hnil => h.ne_empty (String.toList_eq_nil_iff.mp hnil)
    obtain ⟨c, tail, hseparator⟩ := List.exists_cons_of_ne_nil hne
    intro d hd
    rw [hseparator, List.cons_append, List.head?_cons, Option.mem_some_iff] at hd
    subst hd
    exact isDelimiter_of_isBlank (h.blank c (hseparator ▸ List.mem_cons_self))
  | comment text =>
    intro c hc
    rw [takeWhile_append_of_newline (h.newline text rfl)] at hc
    exact h.blank c ((List.takeWhile_sublist _).subset hc)

end Lexeme

theorem Written.blanks {lexemes : List Lexeme} {blanks text : List Char} (h : Written lexemes text)
    (hblanks : ∀ c ∈ blanks, Text.isBlank c = true) : Written lexemes (blanks ++ text) := by
  induction blanks with
  | nil => exact h
  | cons c blanks ih =>
    obtain ⟨hc, hrest⟩ := List.forall_mem_cons.mp hblanks
    exact .blank c hc (ih hrest)

/-- Valid lexemes are written wherever they stand one after the other with separators between them. -/
theorem written_spaced {lexemes : List Lexeme} (hvalid : ∀ lexeme ∈ lexemes, lexeme.Valid) {separators : List String}
    (h : List.Forall₂ Lexeme.SeparatedBy lexemes.dropLast separators) :
    Written lexemes (Lexeme.spaced lexemes separators).toList := by
  induction lexemes generalizing separators with
  | nil => exact .nil
  | cons lexeme rest ih =>
    obtain ⟨hlexeme, hrest⟩ := List.forall_mem_cons.mp hvalid
    rw [Lexeme.spaced, String.toList_append, String.toList_append, List.append_assoc]
    cases rest with
    | nil =>
      cases h
      exact .lexeme lexeme hlexeme (by cases lexeme <;> simp [Lexeme.Ends, Lexeme.spaced]) .nil
    | cons next others =>
      rw [List.dropLast_cons_of_ne_nil (List.cons_ne_nil _ _)] at h
      cases h with
      | cons hseparator hseparators =>
        exact .lexeme lexeme hlexeme (hseparator.ends _) ((ih hrest hseparators).blanks hseparator.blank)

/-- The tokens of a text, written one after the other with any separators between them, are tokens again with the same
lexemes. -/
theorem Token.tokenize_spaced {source : String} {tokens : List Token} (h : tokenize source = .ok tokens)
    {separators : List String}
    (hseparators : List.Forall₂ Lexeme.SeparatedBy (tokens.map (·.lexeme)).dropLast separators) :
    ∃ respaced, tokenize (Lexeme.spaced (tokens.map (·.lexeme)) separators) = .ok respaced ∧
      respaced.map (·.lexeme) = tokens.map (·.lexeme) := by
  refine scan_of_written (written_spaced ?_ hseparators) Position.zero
  rintro lexeme hlexeme
  obtain ⟨token, htoken, rfl⟩ := List.mem_map.mp hlexeme
  exact valid_of_scan h token htoken

/-- A comment keeps its text before another blank and a newline, and a string the blank in it. -/
theorem Token.tokenize_spaced_comment : ∃ tokens respaced, tokenize "(f;c \n\"a b\"x)" = .ok tokens ∧
    tokenize "(\u0085f ;c\t\n\"a b\"\nx )" = .ok respaced ∧ respaced.map (·.lexeme) = tokens.map (·.lexeme) ∧
    respaced.map (·.lexeme) =
      [.opening .round, .atom "f", .comment ";c", .string "\"a b\"", .atom "x", .closing .round] := by
  have hok : ∃ tokens ∈ (tokenize "(f;c \n\"a b\"x)").toOption, tokens.map (·.lexeme) =
      [.opening .round, .atom "f", .comment ";c", .string "\"a b\"", .atom "x", .closing .round] := by decide +kernel
  obtain ⟨tokens, htokens, hlexemes⟩ := hok
  have htokens := mem_toOption_iff.mp htokens
  have hseparators : List.Forall₂ Lexeme.SeparatedBy (tokens.map (·.lexeme)).dropLast
      ["\u0085", " ", "\t\n", "\n", " "] := by
    rw [hlexemes]
    have hblank : ["\u0085", " ", "\t\n", "\n"].all (·.toList.all Text.isBlank) = true := by decide
    simp only [List.all_cons, List.all_nil, Bool.and_true, Bool.and_eq_true, List.all_eq_true] at hblank
    obtain ⟨hnext, hspace, htab, hnewline⟩ := hblank
    exact .cons ⟨by decide, hnext, nofun⟩ (.cons ⟨by decide, hspace, nofun⟩
      (.cons ⟨by decide, htab, fun _ _ => by decide⟩ (.cons ⟨by decide, hnewline, nofun⟩
        (.cons ⟨by decide, hspace, nofun⟩ .nil))))
  obtain ⟨respaced, hrespaced, hsame⟩ := tokenize_spaced htokens hseparators
  rw [hlexemes] at hrespaced
  exact ⟨tokens, respaced, htokens, hrespaced, hsame, hsame.trans hlexemes⟩

end Scheme

end StructuralEditor
