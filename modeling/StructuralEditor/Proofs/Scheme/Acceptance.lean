import StructuralEditor.Proofs.Buffer.Batch
import StructuralEditor.Proofs.Scheme.Grammar
import StructuralEditor.Proofs.Scheme.Lexing
import StructuralEditor.Proofs.Scheme.Planting

/-!
# Which texts are programs

* `Datum.WellFormed` : a datum has the shape that its head demands, and so have the data in it;
* `Datum.exists_draftAll_iff` : just these data can be drafted;
* `Datum.Starts`, `Datum.failsWith_draft` : what cannot be drafted is refused at the start of a datum;
* `parse_accepts_iff` : which texts are accepted, and where the others are refused.
-/

namespace StructuralEditor.Scheme

def specialWords : List String :=
  ["define", "define-struct", "lambda", "λ", "if", "cond", "let", "let*", "letrec", "when", "unless", "begin"]

def Datum.IsAtom (datum : Datum) : Prop := ∃ text span, datum = .atom text span

/-- The datum in the slot has the shape that its head demands, and so have the data in it. -/
inductive Datum.WellFormed : Slot → Datum → Prop
  | atom (text : String) (span : Span) : WellFormed .expression (.atom text span)
  | string (text : String) (span : Span) : WellFormed .expression (.string text span)
  | emptyList (span : Span) : WellFormed .expression (.list [] span)
  | application {head : Datum} {arguments : List Datum} (span : Span)
    (hspecial : ∀ word headSpan, head = .atom word headSpan → word ∉ specialWords)
    (hall : ∀ datum ∈ head :: arguments, WellFormed .expression datum) :
    WellFormed .expression (.list (head :: arguments) span)
  | variableDefinition {body : Datum} (name : String) (headSpan nameSpan span : Span)
    (hbody : WellFormed .expression body) :
    WellFormed .expression (.list [.atom "define" headSpan, .atom name nameSpan, body] span)
  | functionDefinition {parameters : List Datum} {body : Datum} (name : String)
    (headSpan nameSpan headerSpan span : Span) (hparameters : ∀ datum ∈ parameters, datum.IsAtom)
    (hbody : WellFormed .expression body) :
    WellFormed .expression
      (.list [.atom "define" headSpan, .list (.atom name nameSpan :: parameters) headerSpan, body] span)
  | structDefinition {fields : List Datum} (name : String) (headSpan nameSpan fieldsSpan span : Span)
    (hfields : ∀ datum ∈ fields, datum.IsAtom) :
    WellFormed .expression (.list [.atom "define-struct" headSpan, .atom name nameSpan, .list fields fieldsSpan] span)
  | lambda {word : String} {parameters : List Datum} {body : Datum} (headSpan parametersSpan span : Span)
    (hword : word ∈ ["lambda", "λ"]) (hparameters : ∀ datum ∈ parameters, datum.IsAtom)
    (hbody : WellFormed .expression body) :
    WellFormed .expression (.list [.atom word headSpan, .list parameters parametersSpan, body] span)
  | ifElse {test consequent alternative : Datum} (headSpan span : Span)
    (hall : ∀ datum ∈ [test, consequent, alternative], WellFormed .expression datum) :
    WellFormed .expression (.list [.atom "if" headSpan, test, consequent, alternative] span)
  | conditional {clauses : List Datum} (headSpan span : Span) (hne : clauses ≠ [])
    (hclauses : ∀ datum ∈ clauses, WellFormed .clause datum) :
    WellFormed .expression (.list (.atom "cond" headSpan :: clauses) span)
  | clause {test first : Datum} {others : List Datum} (span : Span)
    (hall : ∀ datum ∈ test :: first :: others, WellFormed .expression datum) :
    WellFormed .clause (.list (test :: first :: others) span)
  | letForm {word : String} {bindings : List Datum} {body : Datum} (headSpan bindingsSpan span : Span)
    (hword : word ∈ ["let", "let*", "letrec"]) (hbindings : ∀ datum ∈ bindings, WellFormed .binding datum)
    (hbody : WellFormed .expression body) :
    WellFormed .expression (.list [.atom word headSpan, .list bindings bindingsSpan, body] span)
  | binding {value : Datum} (name : String) (nameSpan span : Span) (hvalue : WellFormed .expression value) :
    WellFormed .binding (.list [.atom name nameSpan, value] span)
  | guarded {word : String} {predicate first : Datum} {others : List Datum} (headSpan span : Span)
    (hword : word ∈ ["when", "unless"])
    (hall : ∀ datum ∈ predicate :: first :: others, WellFormed .expression datum) :
    WellFormed .expression (.list (.atom word headSpan :: predicate :: first :: others) span)
  | begin {first : Datum} {others : List Datum} (headSpan span : Span)
    (hall : ∀ datum ∈ first :: others, WellFormed .expression datum) :
    WellFormed .expression (.list (.atom "begin" headSpan :: first :: others) span)

/-! ## Heads -/

theorem Form.ofHead?_eq_some {word : String} {form : Form} (h : ofHead? word = some form) :
    word = form.word ∨ form = .lambda ∧ word = "λ" := by
  unfold ofHead? at h
  split at h
  · next hword =>
    cases h
    exact .inr ⟨rfl, hword⟩
  · left
    simpa [eq_comm] using List.find?_some h

theorem Form.ofHead?_eq_none_iff {word : String} : ofHead? word = none ↔ word ∉ specialWords := by
  unfold ofHead?
  by_cases hword : word = "λ"
  · subst hword
    decide
  · rw [if_neg hword, List.find?_eq_none]
    simp [all, Form.word, LetVariety.word, GuardVariety.word, specialWords, hword, eq_comm]

namespace Datum

theorem exists_atom_of_form? {head : Datum} {form : Form} (h : head.form? = some form) :
    ∃ word span, head = .atom word span ∧ (word = form.word ∨ form = .lambda ∧ word = "λ") := by
  cases head with
  | atom word span => exact ⟨word, span, rfl, Form.ofHead?_eq_some h⟩
  | string text span => cases h
  | list data span => cases h

theorem form?_eq_none_iff {head : Datum} :
    head.form? = none ↔ ∀ word span, head = .atom word span → word ∉ specialWords := by
  cases head with
  | atom word span =>
    rw [form?, Form.ofHead?_eq_none_iff]
    constructor
    · rintro h word' span' heq
      cases heq
      exact h
    · exact fun h => h word span rfl
  | string text span => exact ⟨fun _ _ _ heq => (nomatch heq), fun _ => rfl⟩
  | list data span => exact ⟨fun _ _ _ heq => (nomatch heq), fun _ => rfl⟩

theorem exists_form?_of_mem_let {word : String} (h : word ∈ ["let", "let*", "letrec"]) (span : Span) :
    ∃ variety, (Datum.atom word span).form? = some (.letForm variety) := by
  simp only [List.mem_cons, List.not_mem_nil, or_false] at h
  rcases h with rfl | rfl | rfl
  · exact ⟨.parallel, rfl⟩
  · exact ⟨.sequential, rfl⟩
  · exact ⟨.recursive, rfl⟩

theorem exists_form?_of_mem_guard {word : String} (h : word ∈ ["when", "unless"]) (span : Span) :
    ∃ variety, (Datum.atom word span).form? = some (.guarded variety) := by
  simp only [List.mem_cons, List.not_mem_nil, or_false] at h
  rcases h with rfl | rfl
  · exact ⟨.whenTrue, rfl⟩
  · exact ⟨.unlessTrue, rfl⟩

theorem form?_of_mem_lambda {word : String} (h : word ∈ ["lambda", "λ"]) (span : Span) :
    (Datum.atom word span).form? = some .lambda := by
  simp only [List.mem_cons, List.not_mem_nil, or_false] at h
  rcases h with rfl | rfl
  · rfl
  · rfl

/-! ## Readings are well formed -/

theorem isAtom_of_mem_ofName {names : List (String × Span)} {datum : Datum} (h : datum ∈ names.map ofName) :
    datum.IsAtom := by
  obtain ⟨name, -, rfl⟩ := List.mem_map.mp h
  exact ⟨name.1, name.2, rfl⟩

theorem exists_names_of_isAtom {data : List Datum} (h : ∀ datum ∈ data, datum.IsAtom) :
    ∃ names : List (String × Span), names.map ofName = data := by
  induction data with
  | nil => exact ⟨[], rfl⟩
  | cons datum data ih =>
    obtain ⟨⟨text, span, rfl⟩, hdata⟩ := List.forall_mem_cons.mp h
    obtain ⟨names, rfl⟩ := ih hdata
    exact ⟨(text, span) :: names, rfl⟩

theorem wellFormed_of_mem_map {slot : Slot} {ps : List (Datum × Draft)} (h : ∀ p ∈ ps, WellFormed slot p.1) :
    ∀ datum ∈ ps.map Prod.fst, WellFormed slot datum := by
  intro datum hmem
  obtain ⟨p, hp, rfl⟩ := List.mem_map.mp hmem
  exact h p hp

theorem wellFormed_of_reads {slot : Slot} {datum : Datum} {d : Draft} (h : Reads slot datum d) :
    WellFormed slot datum := by
  induction h with
  | atom text span => exact .atom text span
  | string text span => exact .string text span
  | emptyList span => exact .emptyList span
  | application span hform _ _ ihhead iharguments =>
    exact .application span (form?_eq_none_iff.mp hform)
      (List.forall_mem_cons.mpr ⟨ihhead, wellFormed_of_mem_map iharguments⟩)
  | variableDefinition name nameSpan span hform _ ih =>
    obtain ⟨word, headSpan, rfl, rfl | ⟨hlambda, -⟩⟩ := exists_atom_of_form? hform
    · exact .variableDefinition name headSpan nameSpan span ih
    · cases hlambda
  | functionDefinition name nameSpan headerSpan span parameters hform _ ih =>
    obtain ⟨word, headSpan, rfl, rfl | ⟨hlambda, -⟩⟩ := exists_atom_of_form? hform
    · exact .functionDefinition name headSpan nameSpan headerSpan span (fun _ => isAtom_of_mem_ofName) ih
    · cases hlambda
  | structDefinition name nameSpan fieldsSpan span fields hform =>
    obtain ⟨word, headSpan, rfl, rfl | ⟨hlambda, -⟩⟩ := exists_atom_of_form? hform
    · exact .structDefinition name headSpan nameSpan fieldsSpan span fun _ => isAtom_of_mem_ofName
    · cases hlambda
  | lambda parametersSpan span parameters hform _ ih =>
    obtain ⟨word, headSpan, rfl, hword⟩ := exists_atom_of_form? hform
    have hmem : word ∈ ["lambda", "λ"] := by
      rcases hword with rfl | ⟨-, rfl⟩
      · exact List.mem_cons_self
      · exact List.mem_cons_of_mem _ List.mem_cons_self
    exact .lambda headSpan parametersSpan span hmem (fun _ => isAtom_of_mem_ofName) ih
  | ifElse span hform _ _ _ ihtest ihconsequent ihalternative =>
    obtain ⟨word, headSpan, rfl, rfl | ⟨hlambda, -⟩⟩ := exists_atom_of_form? hform
    · refine .ifElse headSpan span ?_
      simpa only [List.forall_mem_cons, List.not_mem_nil, IsEmpty.forall_iff, implies_true, and_true] using
        ⟨ihtest, ihconsequent, ihalternative⟩
    · cases hlambda
  | conditional span hform hne _ ih =>
    obtain ⟨word, headSpan, rfl, rfl | ⟨hlambda, -⟩⟩ := exists_atom_of_form? hform
    · exact .conditional headSpan span (mt List.map_eq_nil_iff.mp hne) (wellFormed_of_mem_map ih)
    · cases hlambda
  | @clause test test' consequents span hne _ _ ihtest ih =>
    obtain ⟨first, others, rfl⟩ := List.exists_cons_of_ne_nil hne
    exact .clause span (List.forall_mem_cons.mpr ⟨ihtest, wellFormed_of_mem_map ih⟩)
  | @begin head expressions span hform hne _ ih =>
    obtain ⟨first, others, rfl⟩ := List.exists_cons_of_ne_nil hne
    obtain ⟨word, headSpan, rfl, rfl | ⟨hlambda, -⟩⟩ := exists_atom_of_form? hform
    · exact .begin headSpan span (wellFormed_of_mem_map ih)
    · cases hlambda
  | @guarded variety head predicate predicate' first others span hform _ _ ihpredicate ih =>
    obtain ⟨word, headSpan, rfl, rfl | ⟨hlambda, -⟩⟩ := exists_atom_of_form? hform
    · refine .guarded headSpan span ?_ (List.forall_mem_cons.mpr ⟨ihpredicate, wellFormed_of_mem_map ih⟩)
      cases variety <;> decide
    · cases hlambda
  | @letForm variety head body body' bindings bindingsSpan span hform _ _ ih ihbody =>
    obtain ⟨word, headSpan, rfl, rfl | ⟨hlambda, -⟩⟩ := exists_atom_of_form? hform
    · refine .letForm headSpan bindingsSpan span ?_ (wellFormed_of_mem_map ih) ihbody
      cases variety <;> decide
    · cases hlambda
  | binding name nameSpan span _ ih => exact .binding name nameSpan span ih

/-! ## Well-formed data are readings -/

theorem exists_readsAll {slot : Slot} {data : List Datum} (h : ∀ datum ∈ data, ∃ d, Reads slot datum d) :
    ∃ ds, ReadsAll slot data ds := by
  induction data with
  | nil => exact ⟨[], .nil slot⟩
  | cons datum data ih =>
    obtain ⟨⟨d, hd⟩, hdata⟩ := List.forall_mem_cons.mp h
    obtain ⟨ds, hds⟩ := ih hdata
    exact ⟨d :: ds, .cons hd hds⟩

theorem exists_reads_of_wellFormed {slot : Slot} {datum : Datum} (h : WellFormed slot datum) :
    ∃ d, Reads slot datum d := by
  induction h with
  | atom text span => exact ⟨_, .atom text span⟩
  | string text span => exact ⟨_, .string text span⟩
  | emptyList span => exact ⟨_, .emptyList span⟩
  | application span hspecial _ ih =>
    obtain ⟨⟨function, hhead⟩, harguments⟩ := List.forall_mem_cons.mp ih
    obtain ⟨ds, ps, rfl, -, hps⟩ := exists_readsAll harguments
    exact ⟨_, .application span (form?_eq_none_iff.mpr hspecial) hhead hps⟩
  | variableDefinition name headSpan nameSpan span _ ih =>
    obtain ⟨value, hbody⟩ := ih
    exact ⟨_, .variableDefinition name nameSpan span rfl hbody⟩
  | functionDefinition name headSpan nameSpan headerSpan span hparameters _ ih =>
    obtain ⟨value, hbody⟩ := ih
    obtain ⟨names, rfl⟩ := exists_names_of_isAtom hparameters
    exact ⟨_, .functionDefinition name nameSpan headerSpan span names rfl hbody⟩
  | structDefinition name headSpan nameSpan fieldsSpan span hfields =>
    obtain ⟨names, rfl⟩ := exists_names_of_isAtom hfields
    exact ⟨_, .structDefinition name nameSpan fieldsSpan span names rfl⟩
  | lambda headSpan parametersSpan span hword hparameters _ ih =>
    obtain ⟨value, hbody⟩ := ih
    obtain ⟨names, rfl⟩ := exists_names_of_isAtom hparameters
    exact ⟨_, .lambda parametersSpan span names (form?_of_mem_lambda hword headSpan) hbody⟩
  | ifElse headSpan span _ ih =>
    obtain ⟨test, htest⟩ := ih _ (.head _)
    obtain ⟨consequent, hconsequent⟩ := ih _ (.tail _ (.head _))
    obtain ⟨alternative, halternative⟩ := ih _ (.tail _ (.tail _ (.head _)))
    exact ⟨_, .ifElse span rfl htest hconsequent halternative⟩
  | conditional headSpan span hne _ ih =>
    obtain ⟨ds, ps, rfl, -, hps⟩ := exists_readsAll ih
    exact ⟨_, .conditional span rfl (fun hnil => hne (by rw [hnil]; rfl)) hps⟩
  | clause span _ ih =>
    obtain ⟨⟨test, htest⟩, hconsequents⟩ := List.forall_mem_cons.mp ih
    obtain ⟨ds, hds⟩ := exists_readsAll hconsequents
    obtain ⟨d, ps, rfl, -, hps⟩ := hds.exists_cons
    exact ⟨_, .clause span (List.cons_ne_nil _ ps) htest hps⟩
  | letForm headSpan bindingsSpan span hword _ _ ih ihbody =>
    obtain ⟨variety, hform⟩ := exists_form?_of_mem_let hword headSpan
    obtain ⟨ds, ps, rfl, -, hps⟩ := exists_readsAll ih
    obtain ⟨body, hbody⟩ := ihbody
    exact ⟨_, .letForm bindingsSpan span hform hps hbody⟩
  | binding name nameSpan span _ ih =>
    obtain ⟨value, hvalue⟩ := ih
    exact ⟨_, .binding name nameSpan span hvalue⟩
  | guarded headSpan span hword _ ih =>
    obtain ⟨variety, hform⟩ := exists_form?_of_mem_guard hword headSpan
    obtain ⟨⟨predicate, hpredicate⟩, hbody⟩ := List.forall_mem_cons.mp ih
    obtain ⟨ds, hds⟩ := exists_readsAll hbody
    obtain ⟨d, ps, rfl, -, hps⟩ := hds.exists_cons
    exact ⟨_, .guarded span hform hpredicate hps⟩
  | begin headSpan span _ ih =>
    obtain ⟨ds, hds⟩ := exists_readsAll ih
    obtain ⟨d, ps, rfl, -, hps⟩ := hds.exists_cons
    exact ⟨_, .begin span rfl (List.cons_ne_nil _ ps) hps⟩

theorem exists_draftAll_iff {data : List Datum} :
    (∃ ds, draftAll data = .ok ds) ↔ ∀ datum ∈ data, WellFormed .expression datum := by
  constructor
  · rintro ⟨ds, h⟩
    obtain ⟨ps, rfl, -, hps⟩ := reads_of_draftAll data h
    exact wellFormed_of_mem_map fun p hp => wellFormed_of_reads (hps p hp)
  · intro h
    obtain ⟨ds, hds⟩ := exists_readsAll fun datum hmem => exists_reads_of_wellFormed (h datum hmem)
    exact ⟨ds, draftAll_of_readsAll hds⟩

/-! ## Where a draft fails -/

/-- The datum and all data in it start at positions with the property. -/
inductive Starts (P : Position → Prop) : Datum → Prop
  | atom (text : String) {span : Span} (here : P span.start) : Starts P (.atom text span)
  | string (text : String) {span : Span} (here : P span.start) : Starts P (.string text span)
  | list {data : List Datum} {span : Span} (here : P span.start) (below : ∀ datum ∈ data, Starts P datum) :
    Starts P (.list data span)

variable {P : Position → Prop}

theorem Starts.span {datum : Datum} (h : datum.Starts P) : P datum.span.start := by
  cases h with
  | atom text here => exact here
  | string text here => exact here
  | list here _ => exact here

theorem Starts.parts {data : List Datum} {span : Span} (h : (Datum.list data span).Starts P) :
    ∀ datum ∈ data, datum.Starts P := by
  cases h with
  | list here below => exact below

theorem failsWith_malformed {α : Type} (form : Form) {span : Span} (h : P span.start) :
    FailsWith (ParseError.At P) (malformed form span : Except ParseError α) :=
  .error (ParseError.at_foundAt h _)

theorem failsWith_names (form : Form) {data : List Datum} (h : ∀ datum ∈ data, datum.Starts P) :
    FailsWith (ParseError.At P) (names form data) := by
  refine .mapM fun datum hmem => ?_
  have hstart := (h datum hmem).span
  cases datum with
  | atom text span => exact .ok _
  | string text span => exact failsWith_malformed form hstart
  | list data span => exact failsWith_malformed form hstart

mutual

theorem failsWith_draft : ∀ datum : Datum, datum.Starts P → FailsWith (ParseError.At P) datum.draft
  | .atom text span, _ => by
    rw [draft_atom]
    exact .ok _
  | .string text span, _ => by
    rw [draft_string]
    exact .ok _
  | .list [] span, _ => by
    rw [draft_emptyList]
    exact .ok _
  | .list (head :: rest) span, h => by
    obtain ⟨hhead, hrest⟩ := List.forall_mem_cons.mp h.parts
    unfold draft
    split
    · exact (failsWith_draft head hhead).bind fun _ _ => (failsWith_draftAll rest hrest).bind fun _ _ => .ok _
    · split
      · next name nameSpan body => exact (failsWith_draft body (hrest body (by simp))).bind fun _ _ => .ok _
      · next name nameSpan parameters headerSpan body =>
        have hheader := (hrest _ List.mem_cons_self).parts
        exact (failsWith_names _ (List.forall_mem_cons.mp hheader).2).bind fun _ _ =>
          (failsWith_draft body (hrest body (by simp))).bind fun _ _ => .ok _
      · exact failsWith_malformed _ h.span
    · split
      · next name nameSpan fields fieldsSpan =>
        have hfields : (Datum.list fields fieldsSpan).Starts P := hrest _ (by simp)
        exact (failsWith_names _ hfields.parts).bind fun _ _ => .ok _
      · exact failsWith_malformed _ h.span
    · split
      · next parameters parametersSpan body =>
        exact (failsWith_names _ (hrest _ List.mem_cons_self).parts).bind fun _ _ =>
          (failsWith_draft body (hrest body (by simp))).bind fun _ _ => .ok _
      · exact failsWith_malformed _ h.span
    · split
      · next test consequent alternative =>
        exact (failsWith_draft test (hrest test (by simp))).bind fun _ _ =>
          (failsWith_draft consequent (hrest consequent (by simp))).bind fun _ _ =>
            (failsWith_draft alternative (hrest alternative (by simp))).bind fun _ _ => .ok _
      · exact failsWith_malformed _ h.span
    · split
      · exact failsWith_malformed _ h.span
      · exact (failsWith_draftClauses rest hrest).bind fun _ _ => .ok _
    · split
      · exact failsWith_malformed _ h.span
      · exact (failsWith_draftAll rest hrest).bind fun _ _ => .ok _
    · split
      · next predicate first others =>
        obtain ⟨hpredicate, hbody⟩ := List.forall_mem_cons.mp hrest
        exact (failsWith_draft predicate hpredicate).bind fun _ _ =>
          (failsWith_draftAll (first :: others) hbody).bind fun _ _ => .ok _
      · exact failsWith_malformed _ h.span
    · next variety _ =>
      split
      · next bindings bindingsSpan body =>
        exact (failsWith_draftBindings variety bindings (hrest _ List.mem_cons_self).parts).bind fun _ _ =>
          (failsWith_draft body (hrest body (by simp))).bind fun _ _ => .ok _
      · exact failsWith_malformed _ h.span
termination_by datum => sizeOf datum
decreasing_by
  all_goals
    subst_vars
    simp only [Datum.list.sizeOf_spec, List.cons.sizeOf_spec, List.nil.sizeOf_spec]
    omega

theorem failsWith_draftAll : ∀ data : List Datum, (∀ datum ∈ data, datum.Starts P) →
    FailsWith (ParseError.At P) (draftAll data)
  | [], _ => by
    rw [draftAll]
    exact .ok _
  | datum :: rest, h => by
    obtain ⟨hdatum, hrest⟩ := List.forall_mem_cons.mp h
    rw [draftAll]
    exact (failsWith_draft datum hdatum).bind fun _ _ => (failsWith_draftAll rest hrest).bind fun _ _ => .ok _
termination_by data => sizeOf data
decreasing_by
  all_goals
    simp only [List.cons.sizeOf_spec]
    omega

theorem failsWith_draftClauses : ∀ data : List Datum, (∀ datum ∈ data, datum.Starts P) →
    FailsWith (ParseError.At P) (draftClauses data)
  | [], _ => by
    rw [draftClauses]
    exact .ok _
  | .list (test :: consequent :: others) span :: rest, h => by
    obtain ⟨hclause, hrest⟩ := List.forall_mem_cons.mp h
    obtain ⟨htest, hconsequents⟩ := List.forall_mem_cons.mp hclause.parts
    rw [draftClauses]
    exact (failsWith_draft test htest).bind fun _ _ =>
      (failsWith_draftAll (consequent :: others) hconsequents).bind fun _ _ =>
        (failsWith_draftClauses rest hrest).bind fun _ _ => .ok _
  | .list [_] _ :: _, h | .list [] _ :: _, h | .atom .. :: _, h | .string .. :: _, h => by
    simp only [draftClauses]
    exact failsWith_malformed _ (h _ List.mem_cons_self).span
termination_by data => sizeOf data
decreasing_by
  all_goals
    simp only [Datum.list.sizeOf_spec, List.cons.sizeOf_spec]
    omega

theorem failsWith_draftBindings (variety : LetVariety) : ∀ data : List Datum, (∀ datum ∈ data, datum.Starts P) →
    FailsWith (ParseError.At P) (draftBindings variety data)
  | [], _ => by
    rw [draftBindings]
    exact .ok _
  | .list [.atom name nameSpan, value] span :: rest, h => by
    obtain ⟨hbinding, hrest⟩ := List.forall_mem_cons.mp h
    rw [draftBindings]
    exact (failsWith_draft value (hbinding.parts value (by simp))).bind fun _ _ =>
      (failsWith_draftBindings variety rest hrest).bind fun _ _ => .ok _
  | .atom .. :: _, h | .string .. :: _, h | .list [] _ :: _, h | .list [_] _ :: _, h
  | .list (.string .. :: _) _ :: _, h | .list (.list .. :: _) _ :: _, h
  | .list (_ :: _ :: _ :: _) _ :: _, h => by
    simp only [draftBindings]
    exact failsWith_malformed _ (h _ List.mem_cons_self).span
termination_by data => sizeOf data
decreasing_by
  all_goals
    simp only [Datum.list.sizeOf_spec, List.cons.sizeOf_spec, List.nil.sizeOf_spec]
    omega

end

end Datum

/-! ## Programs -/

theorem starts_of_nested {P : Position → Prop} {n : Nat} {tokens : List Token} {items : List Item}
    (h : Item.Nested n tokens items) (htokens : ∀ token ∈ tokens, P token.span.start) :
    ∀ datum ∈ Item.data items, datum.Starts P := by
  refine h.forall_data (P := fun _ => Datum.Starts P) (fun here => .atom _ here) (fun here => .string _ here) ?_ htokens
  intro n bracket opened closed found hopened hclosed hfound
  refine .list ?_ hfound
  show P (if opened.start ≤ closed.start then opened.start else closed.start)
  split
  · exact hopened
  · exact hclosed

theorem failsWith_parse (depth serial : Nat) (text : String) :
    FailsWith (ParseError.At (Buffer.mk text).HasPosition) (parse depth serial text) := by
  refine (Token.failsWith_scan _ _).bind fun tokens htokens => ?_
  have hstarts := Token.reaches_of_scan htokens
  refine (Item.failsWith_read hstarts).bind fun items hitems => ?_
  have hdata := starts_of_nested (Item.read_eq_ok_iff.mp hitems) hstarts
  exact (Datum.failsWith_draftAll _ hdata).bind fun _ _ => .ok _

/-- A text is accepted just if it has tokens, their brackets match and are nested at most 512 deep, and every datum
has the shape that its head demands. Any other text is refused at one of its positions. -/
theorem parse_accepts_iff (depth serial : Nat) (text : String) :
    ((∃ t, parse depth serial text = .ok t) ↔
      ∃ tokens items, Token.tokenize text = .ok tokens ∧ Item.Nested 512 tokens items ∧
        ∀ datum ∈ Item.data items, datum.WellFormed .expression) ∧
    ∀ e, parse depth serial text = .error e →
      ∃ p, e.position = some p ∧ (Buffer.mk text).HasPosition p := by
  refine ⟨⟨?_, ?_⟩, failsWith_parse depth serial text⟩
  · rintro ⟨t, h⟩
    obtain ⟨tokens, items, drafts, htokens, hitems, hdrafts, -⟩ := parse_eq_ok_iff.mp h
    exact ⟨tokens, items, htokens, Item.read_eq_ok_iff.mp hitems, Datum.exists_draftAll_iff.mp ⟨drafts, hdrafts⟩⟩
  · rintro ⟨tokens, items, htokens, hitems, hdata⟩
    obtain ⟨drafts, hdrafts⟩ := Datum.exists_draftAll_iff.mpr hdata
    exact ⟨_, parse_eq_ok_iff.mpr ⟨tokens, items, drafts, htokens, Item.read_eq_ok_iff.mpr hitems, hdrafts, rfl⟩⟩

end StructuralEditor.Scheme
