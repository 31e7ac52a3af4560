import StructuralEditor.Proofs.Scheme.Lexing
import StructuralEditor.Proofs.Scheme.Meaning

/-!
# Canonical text is read back

* `Prints`, `PrintsAll` : a text, and texts with blanks between them, of which data with a property are read
  wherever they stand;
* `PrintsAll.cons`, `PrintsAll.round`, `PrintsAll.square` : they are put together as lists are;
* `Datum.Fits` : data whose atoms and strings can be found in a text, nested no deeper than a bound;
* `Rereads` : a datum that means what a draft says, and calls for the same form as another;
* `Reprints` : of the canonical text of a draft, such a datum is read;
* `reprints_of_reads` : so it is of every draft that a datum stands for.
-/

namespace StructuralEditor

namespace Scheme

/-! ## Texts of which data are read -/

namespace Item

theorem data_eq_filterMap (items : List Item) : data items = items.filterMap datum? := by
  induction items with
  | nil => rfl
  | cons item rest ih =>
    rw [data, List.filterMap_cons, ih]
    cases item.datum? <;> rfl

theorem data_of_map_datum? {items : List Item} {found : List Datum} (h : items.map datum? = found.map some) :
    data items = found := by
  have hsome : (items.map datum?).filterMap id = (found.map some).filterMap id := congrArg _ h
  rw [List.filterMap_map, List.filterMap_map] at hsome
  rw [data_eq_filterMap]
  simpa using hsome

end Item

/-- Nothing that would make a word longer stands at the start of the text. -/
def Ended (rest : List Char) : Prop := ∀ c ∈ rest.head?, Lexeme.isDelimiter c = true

theorem ended_nil : Ended [] := by simp [Ended]

theorem ended_cons {c : Char} (h : Lexeme.isDelimiter c = true) (rest : List Char) : Ended (c :: rest) := by
  simpa [Ended] using h

/-- Wherever the text stands before a delimiter, its lexemes are found there, and tokens of them spell one datum
with the property, nested at most `n` deep. -/
def Prints (n : Nat) (text : String) (Q : Datum → Prop) : Prop :=
  ∃ lexemes : List Lexeme,
    (∀ {more rest}, Ended rest → Written more rest → Written (lexemes ++ more) (text.toList ++ rest)) ∧
    ∀ {tokens : List Token}, tokens.map (·.lexeme) = lexemes →
      ∃ item datum, Item.datum? item = some datum ∧ Q datum ∧
        ∀ {more items}, Item.Nested n more items → Item.Nested n (tokens ++ more) (item :: items)

/-- The same of texts in a row with one blank between any two, whatever texts follow: their tokens spell data that
have the property together. -/
def PrintsAll (n : Nat) (texts : List String) (Q : List Datum → Prop) : Prop :=
  ∃ lexemes : List Lexeme,
    (∀ {blank}, Text.isBlank blank = true → ∀ {others more rest}, Ended rest →
      Written more ([blank].intercalate others ++ rest) →
      Written (lexemes ++ more) ([blank].intercalate (texts.map String.toList ++ others) ++ rest)) ∧
    ∀ {tokens : List Token}, tokens.map (·.lexeme) = lexemes →
      ∃ items data, items.map Item.datum? = data.map some ∧ Q data ∧
        ∀ {more others}, Item.Nested n more others → Item.Nested n (tokens ++ more) (items ++ others)

variable {n : Nat} {text : String} {texts : List String}

theorem Prints.mono {Q R : Datum → Prop} (h : Prints n text Q) (hmono : ∀ datum, Q datum → R datum) :
    Prints n text R := by
  obtain ⟨lexemes, hwritten, hread⟩ := h
  refine ⟨lexemes, hwritten, fun htokens => ?_⟩
  obtain ⟨item, datum, hdatum, hQ, hnested⟩ := hread htokens
  exact ⟨item, datum, hdatum, hmono datum hQ, hnested⟩

theorem PrintsAll.mono {Q R : List Datum → Prop} (h : PrintsAll n texts Q) (hmono : ∀ data, Q data → R data) :
    PrintsAll n texts R := by
  obtain ⟨lexemes, hwritten, hread⟩ := h
  refine ⟨lexemes, hwritten, fun htokens => ?_⟩
  obtain ⟨items, data, hdata, hQ, hnested⟩ := hread htokens
  exact ⟨items, data, hdata, hmono data hQ, hnested⟩

theorem prints_atom (hvalid : (Lexeme.atom text).Valid) :
    Prints n text fun datum => ∃ span, datum = .atom text span := by
  refine ⟨[.atom text], fun hended hmore => .lexeme (.atom text) hvalid hended hmore, fun htokens => ?_⟩
  obtain ⟨⟨lexeme, span⟩, rfl, rfl⟩ := List.map_eq_singleton_iff.mp htokens
  exact ⟨.atom text span, .atom text span, rfl, ⟨span, rfl⟩, fun hmore => .atom text span hmore⟩

theorem prints_string (hvalid : (Lexeme.string text).Valid) :
    Prints n text fun datum => ∃ span, datum = .string text span := by
  refine ⟨[.string text], fun _ hmore => .lexeme (.string text) hvalid trivial hmore, fun htokens => ?_⟩
  obtain ⟨⟨lexeme, span⟩, rfl, rfl⟩ := List.map_eq_singleton_iff.mp htokens
  exact ⟨.string text span, .string text span, rfl, ⟨span, rfl⟩, fun hmore => .string text span hmore⟩

theorem PrintsAll.nil : PrintsAll n [] (· = []) := by
  refine ⟨[], fun _ _ _ _ _ hmore => hmore, fun htokens => ?_⟩
  obtain rfl := List.map_eq_nil_iff.mp htokens
  exact ⟨[], [], rfl, rfl, fun hmore => hmore⟩

theorem PrintsAll.cons {P : Datum → Prop} {Q : List Datum → Prop} (hfirst : Prints n text P)
    (hrest : PrintsAll n texts Q) :
    PrintsAll n (text :: texts) fun data => ∃ first rest, data = first :: rest ∧ P first ∧ Q rest := by
  obtain ⟨lexemes, hwritten, hread⟩ := hfirst
  obtain ⟨lexemes', hwritten', hread'⟩ := hrest
  refine ⟨lexemes ++ lexemes', fun {blank} hblank {others more rest} hended hmore => ?_, fun htokens => ?_⟩
  · have hothers := hwritten' hblank hended hmore
    rw [List.append_assoc, List.map_cons, List.cons_append]
    cases htexts : texts.map String.toList ++ others with
    | nil =>
      rw [htexts] at hothers
      rw [List.intercalate_singleton]
      exact hwritten hended hothers
    | cons next further =>
      rw [htexts] at hothers
      rw [List.intercalate_cons_of_ne_nil (List.cons_ne_nil next further), List.append_assoc, List.append_assoc]
      exact hwritten (ended_cons (Lexeme.isDelimiter_of_isBlank hblank) _) (.blank blank hblank hothers)
  · obtain ⟨tokens₁, tokens₂, rfl, h₁, h₂⟩ := List.map_eq_append_iff.mp htokens
    obtain ⟨item, datum, hdatum, hP, hnested⟩ := hread h₁
    obtain ⟨items, data, hdata, hQ, hnested'⟩ := hread' h₂
    refine ⟨item :: items, datum :: data, by rw [List.map_cons, List.map_cons, hdatum, hdata],
      ⟨datum, data, rfl, hP, hQ⟩, fun hmore => ?_⟩
    rw [List.append_assoc]
    exact hnested (hnested' hmore)

theorem PrintsAll.bracketed {Q : List Datum → Prop} (h : PrintsAll n texts Q) (bracket : Bracket) :
    Prints (n + 1) (Kind.bracketed (Lexeme.opening bracket).text (Lexeme.closing bracket).text texts)
      fun datum => ∃ data span, datum = .list data span ∧ Q data := by
  obtain ⟨lexemes, hwritten, hread⟩ := h
  refine ⟨.opening bracket :: (lexemes ++ [.closing bracket]), fun {more rest} _ hmore => ?_, fun htokens => ?_⟩
  · have hclosing := Written.lexeme (.closing bracket) trivial trivial hmore
    have hended : Ended ((Lexeme.closing bracket).text.toList ++ rest) := by
      cases bracket <;> exact ended_cons (by decide) rest
    have hinner := @hwritten ' ' (by decide) [] _ _ hended hclosing
    rw [List.append_nil] at hinner
    have hspace : " ".toList = [' '] := by decide
    rw [Kind.bracketed, String.toList_append, String.toList_append, String.toList_intercalate, hspace,
      List.append_assoc, List.append_assoc, List.cons_append, List.append_assoc]
    exact .lexeme (.opening bracket) trivial trivial hinner
  · obtain ⟨⟨_, opened⟩, tokens', rfl, rfl, htokens'⟩ := List.map_eq_cons_iff.mp htokens
    obtain ⟨inner, last, rfl, hinner, hlast⟩ := List.map_eq_append_iff.mp htokens'
    obtain ⟨⟨_, closed⟩, rfl, rfl⟩ := List.map_eq_singleton_iff.mp hlast
    obtain ⟨items, data, hdata, hQ, hnested⟩ := hread hinner
    refine ⟨.list items (opened.union closed), .list data (opened.union closed), ?_,
      ⟨data, opened.union closed, rfl, hQ⟩, fun {more others} hmore => ?_⟩
    · rw [Item.datum?, Item.data_of_map_datum? hdata]
    · have hitems := hnested .nil
      rw [List.append_nil, List.append_nil] at hitems
      rw [List.cons_append, List.append_assoc]
      exact .list bracket opened closed hitems hmore

theorem PrintsAll.round {Q : List Datum → Prop} (h : PrintsAll n texts Q) :
    Prints (n + 1) (Kind.bracketed "(" ")" texts) fun datum => ∃ data span, datum = .list data span ∧ Q data :=
  h.bracketed .round

theorem PrintsAll.square {Q : List Datum → Prop} (h : PrintsAll n texts Q) :
    Prints (n + 1) (Kind.bracketed "[" "]" texts) fun datum => ∃ data span, datum = .list data span ∧ Q data :=
  h.bracketed .square

/-- A datum with atoms and strings that can be found in a text, and with lists nested at most `n` deep. -/
inductive Datum.Fits : Nat → Datum → Prop
  | atom {n : Nat} {text : String} (span : Span) (hvalid : (Lexeme.atom text).Valid) : Fits n (.atom text span)
  | string {n : Nat} {text : String} (span : Span) (hvalid : (Lexeme.string text).Valid) : Fits n (.string text span)
  | list {n : Nat} {data : List Datum} (span : Span) (hdata : ∀ datum ∈ data, Fits n datum) :
    Fits (n + 1) (.list data span)

namespace Datum

variable {span : Span}

theorem Fits.valid_atom (h : Fits n (.atom text span)) : (Lexeme.atom text).Valid := by
  cases h with
  | atom _ hvalid => exact hvalid

theorem Fits.valid_string (h : Fits n (.string text span)) : (Lexeme.string text).Valid := by
  cases h with
  | string _ hvalid => exact hvalid

theorem Fits.parts {data : List Datum} (h : Fits n (.list data span)) :
    ∃ m, n = m + 1 ∧ ∀ datum ∈ data, Fits m datum := by
  cases h with
  | list _ hdata => exact ⟨_, rfl, hdata⟩

end Datum

/-! ## What is read again -/

/-- The text of a content in the slot: a binding is a pair in square brackets. -/
def Slot.written : Slot → Content → String
  | .binding, content => content.rendering.binding
  | _, content => content.text

/-- The other datum calls for the same form as the first, and means what the draft says. -/
def Rereads (slot : Slot) (datum : Datum) (d : Draft) (other : Datum) : Prop :=
  other.form? = datum.form? ∧ Means slot other d.content

/-- Of the canonical text of the draft, a datum is read that stands for the same. -/
def Reprints (slot : Slot) (datum : Datum) (d : Draft) : Prop :=
  ∀ n, datum.Fits n → Prints n (slot.written d.content) (Rereads slot datum d)

theorem printsAll_of_reprints {slot : Slot} {ps : List (Datum × Draft)} (h : ∀ p ∈ ps, Reprints slot p.1 p.2)
    (hfits : ∀ datum ∈ ps.map Prod.fst, datum.Fits n) :
    PrintsAll n (ps.map fun p => slot.written p.2.content)
      (MeansAll slot · ((ps.map Prod.snd).map Draft.content)) := by
  induction ps with
  | nil =>
    refine PrintsAll.nil.mono ?_
    rintro data rfl
    exact .nil slot
  | cons p ps ih =>
    obtain ⟨hp, hps⟩ := List.forall_mem_cons.mp h
    obtain ⟨hpfits, hpsfits⟩ := List.forall_mem_cons.mp hfits
    refine (PrintsAll.cons (hp n hpfits) (ih hps hpsfits)).mono ?_
    rintro data ⟨first, rest, rfl, ⟨-, hfirst⟩, hrest⟩
    exact .cons hfirst hrest

theorem printsAll_names {names : List (String × Span)} (h : ∀ datum ∈ names.map Datum.ofName, datum.Fits n) :
    PrintsAll n (names.map Prod.fst) (Named (names.map Prod.fst)) := by
  induction names with
  | nil =>
    refine PrintsAll.nil.mono ?_
    rintro data rfl
    exact .nil
  | cons name names ih =>
    obtain ⟨hname, hnames⟩ := List.forall_mem_cons.mp h
    refine (PrintsAll.cons (prints_atom (Datum.Fits.valid_atom hname)) (ih hnames)).mono ?_
    rintro data ⟨first, rest, rfl, ⟨span, rfl⟩, hrest⟩
    exact hrest.cons name.1 span

theorem Form.ofHead?_word (form : Form) : ofHead? form.word = some form := by
  cases form with
  | letForm variety => cases variety <;> rfl
  | guarded variety => cases variety <;> rfl
  | _ => rfl

theorem Form.valid_word (form : Form) : (Lexeme.atom form.word).Valid := by
  have hword : form.word.toList ≠ [] ∧ form.word.toList.all (fun c => !Lexeme.isDelimiter c) = true := by
    cases form with
    | letForm variety => cases variety <;> decide
    | guarded variety => cases variety <;> decide
    | _ => decide
  exact ⟨hword.1, by simpa using hword.2⟩

theorem prints_word (form : Form) : Prints n form.word fun datum => datum.form? = some form := by
  refine (prints_atom form.valid_word).mono ?_
  rintro datum ⟨span, rfl⟩
  exact form.ofHead?_word

/-! ## Canonical text -/

/-- Texts that are joined on their own can be joined with others before them. -/
theorem intercalate_append_intercalate (separator : String) (texts : List String) {others : List String}
    (h : others ≠ []) :
    separator.intercalate (texts ++ [separator.intercalate others]) = separator.intercalate (texts ++ others) := by
  by_cases htexts : texts = []
  · rw [htexts, List.nil_append, List.nil_append, String.intercalate_singleton]
  · rw [String.intercalate_append_of_ne_nil htexts (List.cons_ne_nil _ _), String.intercalate_singleton,
      String.intercalate_append_of_ne_nil htexts h]

theorem bracketed_intercalate (opening closing : String) (texts : List String) :
    Kind.bracketed opening closing [" ".intercalate texts] = Kind.bracketed opening closing texts := by
  rw [Kind.bracketed, String.intercalate_singleton, Kind.bracketed]

/-- The header of a function has the parameters after the name, if there are any. -/
theorem bracketed_header (opening closing name : String) {names : List (String × Span)}
    (h : ∀ datum ∈ names.map Datum.ofName, datum.Fits n) :
    Kind.bracketed opening closing (if " ".intercalate (names.map Prod.fst) = "" then [name]
      else [name, " ".intercalate (names.map Prod.fst)]) =
    Kind.bracketed opening closing (name :: names.map Prod.fst) := by
  cases names with
  | nil => rfl
  | cons first others =>
    have hfirst : (Datum.atom first.1 first.2).Fits n := h _ List.mem_cons_self
    have hne : " ".intercalate ((first :: others).map Prod.fst) ≠ "" := by
      intro hempty
      have hchars := congrArg String.toList hempty
      rw [String.toList_intercalate] at hchars
      cases others with
      | nil => simp [hfirst.valid_atom.1] at hchars
      | cons next others => simp at hchars
    have hjoin := intercalate_append_intercalate " " [name] (List.cons_ne_nil first.1 (others.map Prod.fst))
    rw [List.singleton_append, List.singleton_append] at hjoin
    rw [if_neg hne, Kind.bracketed, Kind.bracketed, List.map_cons, hjoin]

theorem Slot.written_content_mk {slot : Slot} (hslot : slot ≠ .binding) (span : Span) (label : String)
    (kind : Kind Draft) :
    slot.written (Draft.mk span label kind).content = (kind.map fun d => d.content.rendering).written := by
  rw [written, Content.text, Draft.rendering_content_mk]
  · rfl
  · exact hslot

section Forms

variable {head body test consequent alternative predicate : Datum} {value test' consequent' alternative' : Draft}
  {name : String} {nameSpan span : Span} {names : List (String × Span)} {ps : List (Datum × Draft)}

theorem reprints_application {function : Draft} (hform : head.form? = none)
    (hhead : Reprints .expression head function) (harguments : ∀ p ∈ ps, Reprints .expression p.1 p.2) :
    Reprints .expression (.list (head :: ps.map Prod.fst) span)
      (.mk span (Datum.applicationLabel head) (.application function (ps.map Prod.snd))) := by
  intro n hfits
  obtain ⟨m, rfl, hparts⟩ := hfits.parts
  obtain ⟨hhead', harguments'⟩ := List.forall_mem_cons.mp hparts
  have hprints := (PrintsAll.cons (hhead m hhead') (printsAll_of_reprints harguments harguments')).round
  rw [Slot.written_content_mk (by decide)]
  simp only [Kind.map, Kind.written, List.map_map]
  refine hprints.mono ?_
  rintro datum ⟨data, span', rfl, head', _, rfl, ⟨hform', hhead⟩, harguments⟩
  rw [Rereads, Draft.content_mk]
  exact ⟨rfl, .application (hform'.trans hform) hhead harguments span'⟩

theorem reprints_variableDefinition (hbody : Reprints .expression body value) :
    Reprints .expression (.list [head, .atom name nameSpan, body] span)
      (.mk span ("define " ++ name) (.variableDefinition (Draft.ofAtom name nameSpan) value)) := by
  intro n hfits
  obtain ⟨m, rfl, hparts⟩ := hfits.parts
  have hname : (Datum.atom name nameSpan).Fits m := hparts _ (by simp)
  have hprints := (PrintsAll.cons (prints_word .define) (.cons (prints_atom hname.valid_atom)
    (.cons (hbody m (hparts _ (by simp))) .nil))).round
  rw [Slot.written_content_mk (by decide)]
  simp only [Kind.map, Kind.written, Draft.text_ofAtom]
  refine hprints.mono ?_
  rintro datum ⟨data, span', rfl, head', _, rfl, hform', _, _, rfl, ⟨nameSpan', rfl⟩, body', _, rfl, ⟨-, hbody⟩, rfl⟩
  rw [Rereads, Draft.content_mk, Kind.map, Draft.content_ofAtom]
  exact ⟨rfl, .variableDefinition hform' name nameSpan' hbody span'⟩

theorem reprints_functionDefinition {headerSpan : Span} (hbody : Reprints .expression body value) :
    Reprints .expression (.list [head, .list (.atom name nameSpan :: names.map Datum.ofName) headerSpan, body] span)
      (.mk span ("define " ++ name) (.functionDefinition (Draft.ofAtom name nameSpan)
        (Draft.ofNames "parameters" (Datum.parametersSpan nameSpan (names.map Datum.ofName)) names) value)) := by
  intro n hfits
  obtain ⟨m, rfl, hparts⟩ := hfits.parts
  obtain ⟨k, rfl, hheader⟩ := (hparts _ (List.mem_cons_of_mem _ List.mem_cons_self)).parts
  obtain ⟨hname, hparameters⟩ := List.forall_mem_cons.mp hheader
  have hprints := (PrintsAll.cons (prints_word .define)
    (.cons (PrintsAll.cons (prints_atom hname.valid_atom) (printsAll_names hparameters)).round
      (.cons (hbody _ (hparts _ (by simp))) .nil))).round
  rw [Slot.written_content_mk (by decide)]
  simp only [Kind.map, Kind.written, Draft.text_ofAtom, Draft.text_ofNames, bracketed_header _ _ _ hparameters]
  refine hprints.mono ?_
  rintro datum ⟨data, span', rfl, head', _, rfl, hform', _, _, rfl,
    ⟨_, headerSpan', rfl, _, _, rfl, ⟨nameSpan', rfl⟩, hparameters⟩, body', _, rfl, ⟨-, hbody⟩, rfl⟩
  rw [Rereads, Draft.content_mk, Kind.map, Draft.content_ofAtom, Draft.content_ofNames]
  exact ⟨rfl, .functionDefinition hform' name nameSpan' headerSpan' hparameters hbody span'⟩

theorem reprints_structDefinition {fieldsSpan : Span} :
    Reprints .expression (.list [head, .atom name nameSpan, .list (names.map Datum.ofName) fieldsSpan] span)
      (.mk span ("define-struct " ++ name)
        (.structDefinition (Draft.ofAtom name nameSpan) (Draft.ofNames "fields" fieldsSpan names))) := by
  intro n hfits
  obtain ⟨m, rfl, hparts⟩ := hfits.parts
  have hname : (Datum.atom name nameSpan).Fits m := hparts _ (by simp)
  have hfields : (Datum.list (names.map Datum.ofName) fieldsSpan).Fits m := hparts _ (by simp)
  obtain ⟨k, rfl, hnames⟩ := hfields.parts
  have hprints := (PrintsAll.cons (prints_word .defineStruct) (.cons (prints_atom hname.valid_atom)
    (.cons (printsAll_names hnames).round .nil))).round
  rw [Slot.written_content_mk (by decide)]
  simp only [Kind.map, Kind.written, Draft.text_ofAtom, Draft.text_ofNames, bracketed_intercalate]
  refine hprints.mono ?_
  rintro datum ⟨data, span', rfl, head', _, rfl, hform', _, _, rfl, ⟨nameSpan', rfl⟩, _, _, rfl,
    ⟨_, fieldsSpan', rfl, hfields⟩, rfl⟩
  rw [Rereads, Draft.content_mk, Kind.map, Draft.content_ofAtom, Draft.content_ofNames]
  exact ⟨rfl, .structDefinition hform' name nameSpan' fieldsSpan' hfields span'⟩

theorem reprints_lambda {parametersSpan : Span} (hbody : Reprints .expression body value) :
    Reprints .expression (.list [head, .list (names.map Datum.ofName) parametersSpan, body] span)
      (.mk span "lambda expression" (.lambda (Draft.ofNames "parameters" parametersSpan names) value)) := by
  intro n hfits
  obtain ⟨m, rfl, hparts⟩ := hfits.parts
  obtain ⟨k, rfl, hnames⟩ := (hparts _ (List.mem_cons_of_mem _ List.mem_cons_self)).parts
  have hprints := (PrintsAll.cons (prints_word .lambda)
    (.cons (printsAll_names hnames).round (.cons (hbody _ (hparts _ (by simp))) .nil))).round
  rw [Slot.written_content_mk (by decide)]
  simp only [Kind.map, Kind.written, Draft.text_ofNames, bracketed_intercalate]
  refine hprints.mono ?_
  rintro datum ⟨data, span', rfl, head', _, rfl, hform', _, _, rfl, ⟨_, parametersSpan', rfl, hparameters⟩, body', _,
    rfl, ⟨-, hbody⟩, rfl⟩
  rw [Rereads, Draft.content_mk, Kind.map, Draft.content_ofNames]
  exact ⟨rfl, .lambda hform' parametersSpan' hparameters hbody span'⟩

theorem reprints_ifElse (htest : Reprints .expression test test')
    (hconsequent : Reprints .expression consequent consequent')
    (halternative : Reprints .expression alternative alternative') :
    Reprints .expression (.list [head, test, consequent, alternative] span)
      (.mk span "if expression" (.ifElse test' consequent' alternative')) := by
  intro n hfits
  obtain ⟨m, rfl, hparts⟩ := hfits.parts
  have hprints := (PrintsAll.cons (prints_word .ifElse) (.cons (htest m (hparts _ (by simp)))
    (.cons (hconsequent m (hparts _ (by simp))) (.cons (halternative m (hparts _ (by simp))) .nil)))).round
  rw [Slot.written_content_mk (by decide)]
  simp only [Kind.map, Kind.written]
  refine hprints.mono ?_
  rintro datum ⟨data, span', rfl, head', _, rfl, hform', _, _, rfl, ⟨-, htest⟩, _, _, rfl, ⟨-, hconsequent⟩, _, _, rfl,
    ⟨-, halternative⟩, rfl⟩
  rw [Rereads, Draft.content_mk]
  exact ⟨rfl, .ifElse hform' htest hconsequent halternative span'⟩

theorem reprints_conditional (hne : ps ≠ []) (hclauses : ∀ p ∈ ps, Reprints .clause p.1 p.2) :
    Reprints .expression (.list (head :: ps.map Prod.fst) span)
      (.mk span ("cond expression with " ++ Text.pluralize "condition" ps.length)
        (.conditional (ps.map Prod.snd))) := by
  intro n hfits
  obtain ⟨m, rfl, hparts⟩ := hfits.parts
  obtain ⟨-, hparts⟩ := List.forall_mem_cons.mp hparts
  have hprints := (PrintsAll.cons (prints_word .cond) (printsAll_of_reprints hclauses hparts)).round
  rw [Slot.written_content_mk (by decide)]
  simp only [Kind.map, Kind.written, List.map_map]
  refine hprints.mono ?_
  rintro datum ⟨data, span', rfl, head', _, rfl, hform', hclauses⟩
  rw [Rereads, Draft.content_mk]
  exact ⟨rfl, .conditional hform' (by simpa using hne) hclauses span'⟩

theorem reprints_clause (hne : ps ≠ []) (htest : Reprints .expression test test')
    (hconsequents : ∀ p ∈ ps, Reprints .expression p.1 p.2) :
    Reprints .clause (.list (test :: ps.map Prod.fst) span)
      (.mk span "condition" (.clause test' (ps.map Prod.snd))) := by
  intro n hfits
  obtain ⟨m, rfl, hparts⟩ := hfits.parts
  obtain ⟨hfirst, hparts⟩ := List.forall_mem_cons.mp hparts
  have hprints := (PrintsAll.cons (htest m hfirst) (printsAll_of_reprints hconsequents hparts)).square
  rw [Slot.written_content_mk (by decide)]
  simp only [Kind.map, Kind.written, List.map_map]
  refine hprints.mono ?_
  rintro datum ⟨data, span', rfl, _, _, rfl, ⟨-, htest⟩, hconsequents⟩
  rw [Rereads, Draft.content_mk]
  exact ⟨rfl, .clause (by simpa using hne) htest hconsequents span'⟩

theorem reprints_begin (hne : ps ≠ []) (hexpressions : ∀ p ∈ ps, Reprints .expression p.1 p.2) :
    Reprints .expression (.list (head :: ps.map Prod.fst) span)
      (.mk span "begin expression" (.sequence "begin" (ps.map Prod.snd))) := by
  intro n hfits
  obtain ⟨m, rfl, hparts⟩ := hfits.parts
  obtain ⟨-, hparts⟩ := List.forall_mem_cons.mp hparts
  have hprints := (PrintsAll.cons (prints_word .begin) (printsAll_of_reprints hexpressions hparts)).round
  rw [Slot.written_content_mk (by decide)]
  simp only [Kind.map, Kind.written, List.map_map]
  refine hprints.mono ?_
  rintro datum ⟨data, span', rfl, head', _, rfl, hform', hexpressions⟩
  rw [Rereads, Draft.content_mk]
  exact ⟨rfl, .begin hform' (by simpa using hne) hexpressions span'⟩

theorem reprints_guarded {variety : GuardVariety} {predicate' : Draft} {first : Datum × Draft}
    (hpredicate : Reprints .expression predicate predicate')
    (hbody : ∀ p ∈ first :: ps, Reprints .expression p.1 p.2) :
    Reprints .expression (.list (head :: predicate :: first.1 :: ps.map Prod.fst) span)
      (.mk span (variety.word ++ " expression") (.whenForm variety.word predicate'
        (.mk (Datum.spanOfAll first.1 (ps.map Prod.fst)) (Text.pluralize "expression" (ps.length + 1))
          (.sequence "begin" (first.2 :: ps.map Prod.snd))))) := by
  intro n hfits
  obtain ⟨m, rfl, hparts⟩ := hfits.parts
  obtain ⟨hfirst, hparts⟩ := List.forall_mem_cons.mp (List.forall_mem_cons.mp hparts).2
  have hprints := (PrintsAll.cons (prints_word (.guarded variety))
    (.cons (hpredicate m hfirst) (printsAll_of_reprints hbody hparts))).round
  rw [Slot.written_content_mk (by decide)]
  simp only [Kind.map, Kind.written, Draft.rendering_content_mk, Kind.rendering, List.map_cons, List.map_map]
  refine hprints.mono ?_
  rintro datum ⟨data, span', rfl, head', _, rfl, hform', _, _, rfl, ⟨-, hpredicate⟩, hbody⟩
  rw [Rereads, Draft.content_mk, Kind.map, Draft.content_mk]
  exact ⟨rfl, .guarded hform' (by simp) hpredicate hbody span'⟩

theorem reprints_letForm {variety : LetVariety} {bindingsSpan : Span}
    (hbindings : ∀ p ∈ ps, Reprints .binding p.1 p.2) (hbody : Reprints .expression body value) :
    Reprints .expression (.list [head, .list (ps.map Prod.fst) bindingsSpan, body] span)
      (.mk span (variety.word ++ " expression") (.letForm variety.word
        (.mk bindingsSpan (Text.pluralize "binding" ps.length) (.sequence "bindings" (ps.map Prod.snd))) value)) := by
  intro n hfits
  obtain ⟨m, rfl, hparts⟩ := hfits.parts
  obtain ⟨k, rfl, hinner⟩ := (hparts _ (List.mem_cons_of_mem _ List.mem_cons_self)).parts
  have hprints := (PrintsAll.cons (prints_word (.letForm variety))
    (.cons (printsAll_of_reprints hbindings hinner).round (.cons (hbody _ (hparts _ (by simp))) .nil))).round
  rw [Slot.written_content_mk (by decide)]
  simp only [Kind.map, Kind.written, Draft.rendering_content_mk, Kind.rendering, List.map_map]
  refine hprints.mono ?_
  rintro datum ⟨data, span', rfl, head', _, rfl, hform', _, _, rfl, ⟨_, bindingsSpan', rfl, hbindings⟩, _, _, rfl,
    ⟨-, hbody⟩, rfl⟩
  rw [Rereads, Draft.content_mk, Kind.map, Draft.content_mk]
  exact ⟨rfl, .letForm hform' bindingsSpan' hbindings hbody span'⟩

theorem reprints_binding (hvalue : Reprints .expression body value) :
    Reprints .binding (.list [.atom name nameSpan, body] span)
      (.mk span ("bind " ++ name) (.variableDefinition (Draft.ofAtom name nameSpan) value)) := by
  intro n hfits
  obtain ⟨m, rfl, hparts⟩ := hfits.parts
  have hname : (Datum.atom name nameSpan).Fits m := hparts _ (by simp)
  have hprints := (PrintsAll.cons (prints_atom hname.valid_atom) (.cons (hvalue m (hparts _ (by simp))) .nil)).square
  rw [Slot.written, Draft.rendering_content_mk]
  simp only [Kind.map, Kind.rendering, Draft.text_ofAtom]
  refine hprints.mono ?_
  rintro datum ⟨data, span', rfl, _, _, rfl, ⟨nameSpan', rfl⟩, _, _, rfl, ⟨-, hvalue⟩, rfl⟩
  rw [Rereads, Draft.content_mk, Kind.map, Draft.content_ofAtom]
  exact ⟨rfl, .binding name nameSpan' hvalue span'⟩

end Forms

/-- Of the canonical text of what a datum stands for, a datum is read that stands for the same. -/
theorem reprints_of_reads {slot : Slot} {datum : Datum} {d : Draft} (h : Reads slot datum d) :
    Reprints slot datum d := by
  induction h with
  | atom text span =>
    intro n hfits
    rw [Draft.content_ofAtom, Slot.written, text_atomContent]
    · refine (prints_atom hfits.valid_atom).mono ?_
      rintro datum ⟨span', rfl⟩
      rw [Rereads, Draft.content_ofAtom]
      exact ⟨rfl, .atom text span'⟩
    · simp
  | string text span =>
    intro n hfits
    rw [Slot.written_content_mk (by decide)]
    refine (prints_string hfits.valid_string).mono ?_
    rintro datum ⟨span', rfl⟩
    rw [Rereads, Draft.content_mk]
    exact ⟨rfl, .string text span'⟩
  | emptyList span =>
    intro n hfits
    obtain ⟨m, rfl, -⟩ := hfits.parts
    rw [Slot.written_content_mk (by decide)]
    refine PrintsAll.nil.round.mono ?_
    rintro datum ⟨data, span', rfl, rfl⟩
    rw [Rereads, Draft.content_mk]
    exact ⟨rfl, .emptyList span'⟩
  | application span hform _ _ ihhead ih => exact reprints_application hform ihhead ih
  | variableDefinition name nameSpan span _ _ ih => exact reprints_variableDefinition ih
  | functionDefinition name nameSpan headerSpan span parameters _ _ ih => exact reprints_functionDefinition ih
  | structDefinition name nameSpan fieldsSpan span fields _ => exact reprints_structDefinition
  | lambda parametersSpan span parameters _ _ ih => exact reprints_lambda ih
  | ifElse span _ _ _ _ ihtest ihconsequent ihalternative => exact reprints_ifElse ihtest ihconsequent ihalternative
  | conditional span _ hne _ ih => exact reprints_conditional hne ih
  | clause span hne _ _ ihtest ih => exact reprints_clause hne ihtest ih
  | begin span _ hne _ ih => exact reprints_begin hne ih
  | guarded span _ _ _ ihpredicate ih => exact reprints_guarded ihpredicate ih
  | letForm bindingsSpan span _ _ _ ih ihbody => exact reprints_letForm ih ihbody
  | binding name nameSpan span _ ih => exact reprints_binding ih

end Scheme

end StructuralEditor
