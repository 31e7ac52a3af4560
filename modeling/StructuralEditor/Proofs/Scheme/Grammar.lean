import StructuralEditor.Proofs.Outcome
import StructuralEditor.Scheme.Draft

/-!
# The grammar of expressions

* `Slot` : what is expected where a datum or a node stands;
* `Reads` : the datum in a slot has the shape that the slot demands, and stands for the draft;
* `Datum.reads_of_draft` : so it is with every draft that is made;
* `Datum.draftAll_of_readsAll` : and every such draft is made.
-/

namespace StructuralEditor.Scheme

/-- What is expected where a datum or a node stands. -/
inductive Slot where
  | expression
  | clause
  | bindings
  | binding
  | body
deriving DecidableEq, Repr

def Datum.ofName (name : String × Span) : Datum := .atom name.1 name.2

/-- The datum in the slot has the shape that the slot demands, and stands for the draft. Lists of data come with
their drafts, so that all parts are below the whole. -/
inductive Reads : Slot → Datum → Draft → Prop
  | atom (text : String) (span : Span) : Reads .expression (.atom text span) (Draft.ofAtom text span)
  | string (text : String) (span : Span) :
    Reads .expression (.string text span) (.mk span text (.literal text "string"))
  | emptyList (span : Span) : Reads .expression (.list [] span) (.mk span "empty list" (.unknown []))
  | application {head : Datum} {function : Draft} {arguments : List (Datum × Draft)} (span : Span)
    (hform : head.form? = none) (hhead : Reads .expression head function)
    (harguments : ∀ p ∈ arguments, Reads .expression p.1 p.2) :
    Reads .expression (.list (head :: arguments.map Prod.fst) span)
      (.mk span (Datum.applicationLabel head) (.application function (arguments.map Prod.snd)))
  | variableDefinition {head body : Datum} {value : Draft} (name : String) (nameSpan span : Span)
    (hform : head.form? = some .define) (hbody : Reads .expression body value) :
    Reads .expression (.list [head, .atom name nameSpan, body] span)
      (.mk span ("define " ++ name) (.variableDefinition (Draft.ofAtom name nameSpan) value))
  | functionDefinition {head body : Datum} {value : Draft} (name : String) (nameSpan headerSpan span : Span)
    (parameters : List (String × Span)) (hform : head.form? = some .define)
    (hbody : Reads .expression body value) :
    Reads .expression (.list [head, .list (.atom name nameSpan :: parameters.map Datum.ofName) headerSpan, body] span)
      (.mk span ("define " ++ name) (.functionDefinition (Draft.ofAtom name nameSpan)
        (Draft.ofNames "parameters" (Datum.parametersSpan nameSpan (parameters.map Datum.ofName)) parameters) value))
  | structDefinition {head : Datum} (name : String) (nameSpan fieldsSpan span : Span)
    (fields : List (String × Span)) (hform : head.form? = some .defineStruct) :
    Reads .expression (.list [head, .atom name nameSpan, .list (fields.map Datum.ofName) fieldsSpan] span)
      (.mk span ("define-struct " ++ name)
        (.structDefinition (Draft.ofAtom name nameSpan) (Draft.ofNames "fields" fieldsSpan fields)))
  | lambda {head body : Datum} {value : Draft} (parametersSpan span : Span) (parameters : List (String × Span))
    (hform : head.form? = some .lambda) (hbody : Reads .expression body value) :
    Reads .expression (.list [head, .list (parameters.map Datum.ofName) parametersSpan, body] span)
      (.mk span "lambda expression" (.lambda (Draft.ofNames "parameters" parametersSpan parameters) value))
  | ifElse {head test consequent alternative : Datum} {test' consequent' alternative' : Draft} (span : Span)
    (hform : head.form? = some .ifElse) (htest : Reads .expression test test')
    (hconsequent : Reads .expression consequent consequent')
    (halternative : Reads .expression alternative alternative') :
    Reads .expression (.list [head, test, consequent, alternative] span)
      (.mk span "if expression" (.ifElse test' consequent' alternative'))
  | conditional {head : Datum} {clauses : List (Datum × Draft)} (span : Span) (hform : head.form? = some .cond)
    (hne : clauses ≠ []) (hclauses : ∀ p ∈ clauses, Reads .clause p.1 p.2) :
    Reads .expression (.list (head :: clauses.map Prod.fst) span)
      (.mk span ("cond expression with " ++ Text.pluralize "condition" clauses.length)
        (.conditional (clauses.map Prod.snd)))
  | clause {test : Datum} {test' : Draft} {consequents : List (Datum × Draft)} (span : Span)
    (hne : consequents ≠ []) (htest : Reads .expression test test')
    (hconsequents : ∀ p ∈ consequents, Reads .expression p.1 p.2) :
    Reads .clause (.list (test :: consequents.map Prod.fst) span)
      (.mk span "condition" (.clause test' (consequents.map Prod.snd)))
  | begin {head : Datum} {expressions : List (Datum × Draft)} (span : Span) (hform : head.form? = some .begin)
    (hne : expressions ≠ []) (hexpressions : ∀ p ∈ expressions, Reads .expression p.1 p.2) :
    Reads .expression (.list (head :: expressions.map Prod.fst) span)
      (.mk span "begin expression" (.sequence "begin" (expressions.map Prod.snd)))
  | guarded {variety : GuardVariety} {head predicate : Datum} {predicate' : Draft} {first : Datum × Draft}
    {others : List (Datum × Draft)} (span : Span) (hform : head.form? = some (.guarded variety))
    (hpredicate : Reads .expression predicate predicate')
    (hbody : ∀ p ∈ first :: others, Reads .expression p.1 p.2) :
    Reads .expression (.list (head :: predicate :: first.1 :: others.map Prod.fst) span)
      (.mk span (variety.word ++ " expression") (.whenForm variety.word predicate'
        (.mk (Datum.spanOfAll first.1 (others.map Prod.fst))
          (Text.pluralize "expression" (others.length + 1)) (.sequence "begin" (first.2 :: others.map Prod.snd)))))
  | letForm {variety : LetVariety} {head body : Datum} {body' : Draft} {bindings : List (Datum × Draft)}
    (bindingsSpan span : Span) (hform : head.form? = some (.letForm variety))
    (hbindings : ∀ p ∈ bindings, Reads .binding p.1 p.2) (hbody : Reads .expression body body') :
    Reads .expression (.list [head, .list (bindings.map Prod.fst) bindingsSpan, body] span)
      (.mk span (variety.word ++ " expression") (.letForm variety.word
        (.mk bindingsSpan (Text.pluralize "binding" bindings.length)
          (.sequence "bindings" (bindings.map Prod.snd))) body'))
  | binding {value : Datum} {value' : Draft} (name : String) (nameSpan span : Span)
    (hvalue : Reads .expression value value') :
    Reads .binding (.list [.atom name nameSpan, value] span)
      (.mk span ("bind " ++ name) (.variableDefinition (Draft.ofAtom name nameSpan) value'))

/-- The data stand for the drafts, one for one. -/
def ReadsAll (slot : Slot) (data : List Datum) (ds : List Draft) : Prop :=
  ∃ ps : List (Datum × Draft), ps.map Prod.fst = data ∧ ps.map Prod.snd = ds ∧ ∀ p ∈ ps, Reads slot p.1 p.2

theorem ReadsAll.nil (slot : Slot) : ReadsAll slot [] [] := ⟨[], rfl, rfl, by simp⟩

theorem ReadsAll.cons {slot : Slot} {datum : Datum} {d : Draft} {data : List Datum} {ds : List Draft}
    (h : Reads slot datum d) (hall : ReadsAll slot data ds) : ReadsAll slot (datum :: data) (d :: ds) := by
  obtain ⟨ps, rfl, rfl, hps⟩ := hall
  exact ⟨(datum, d) :: ps, rfl, rfl, List.forall_mem_cons.mpr ⟨h, hps⟩⟩

theorem ReadsAll.exists_cons {slot : Slot} {first : Datum} {others : List Datum} {ds : List Draft}
    (h : ReadsAll slot (first :: others) ds) :
    ∃ d ps, others = ps.map Prod.fst ∧ ds = d :: ps.map Prod.snd ∧
      ∀ p ∈ (first, d) :: ps, Reads slot p.1 p.2 := by
  obtain ⟨ps, hfst, rfl, hps⟩ := h
  cases ps with
  | nil => cases hfst
  | cons p ps =>
    obtain ⟨rfl, rfl⟩ := List.cons.inj hfst
    exact ⟨p.2, ps, rfl, rfl, hps⟩

namespace Datum

theorem eq_of_names {form : Form} {data : List Datum} {ns : List (String × Span)} (h : names form data = .ok ns) :
    data = ns.map ofName := by
  have hall := ok_mapM_iff.mp h
  clear h
  induction hall with
  | nil => rfl
  | @cons datum name data ns hname _ ih =>
    rw [List.map_cons, ih]
    cases datum with
    | atom text span =>
      cases hname
      rfl
    | string text span => cases hname
    | list inner span => cases hname

theorem names_ofName (form : Form) (ns : List (String × Span)) : names form (ns.map ofName) = .ok ns := by
  refine ok_mapM_iff.mpr ?_
  induction ns with
  | nil => exact .nil
  | cons name ns ih => exact .cons rfl ih

/-! ## What each form demands -/

section Demands

variable {head : Datum} {rest : List Datum} {span : Span} {d : Draft}

theorem draft_application (hform : head.form? = none) (h : (list (head :: rest) span).draft = .ok d) :
    ∃ function arguments, head.draft = .ok function ∧ draftAll rest = .ok arguments ∧
      d = .mk span (applicationLabel head) (.application function arguments) := by
  unfold draft at h
  simp only [hform, ok_bind_iff, ok_pure_iff] at h
  obtain ⟨function, hfunction, arguments, harguments, rfl⟩ := h
  exact ⟨function, arguments, hfunction, harguments, rfl⟩

theorem draft_define (hform : head.form? = some .define) (h : (list (head :: rest) span).draft = .ok d) :
    (∃ name nameSpan body value, rest = [.atom name nameSpan, body] ∧ body.draft = .ok value ∧
      d = .mk span ("define " ++ name) (.variableDefinition (Draft.ofAtom name nameSpan) value)) ∨
    ∃ name nameSpan headerSpan ns body value, rest = [.list (.atom name nameSpan :: ns.map ofName) headerSpan, body] ∧
      body.draft = .ok value ∧
      d = .mk span ("define " ++ name) (.functionDefinition (Draft.ofAtom name nameSpan)
        (Draft.ofNames "parameters" (parametersSpan nameSpan (ns.map ofName)) ns) value) := by
  unfold draft at h
  simp only [hform] at h
  split at h
  · next name nameSpan body =>
    simp only [ok_bind_iff, ok_pure_iff] at h
    obtain ⟨value, hvalue, rfl⟩ := h
    exact .inl ⟨name, nameSpan, body, value, rfl, hvalue, rfl⟩
  · next name nameSpan parameters headerSpan body =>
    simp only [ok_bind_iff, ok_pure_iff] at h
    obtain ⟨ns, hns, value, hvalue, rfl⟩ := h
    rw [eq_of_names hns]
    exact .inr ⟨name, nameSpan, headerSpan, ns, body, value, rfl, hvalue, rfl⟩
  · cases h

theorem draft_defineStruct (hform : head.form? = some .defineStruct)
    (h : (list (head :: rest) span).draft = .ok d) :
    ∃ name nameSpan ns fieldsSpan, rest = [.atom name nameSpan, .list (ns.map ofName) fieldsSpan] ∧
      d = .mk span ("define-struct " ++ name)
        (.structDefinition (Draft.ofAtom name nameSpan) (Draft.ofNames "fields" fieldsSpan ns)) := by
  unfold draft at h
  simp only [hform] at h
  split at h
  · next name nameSpan fields fieldsSpan =>
    simp only [ok_bind_iff, ok_pure_iff] at h
    obtain ⟨ns, hns, rfl⟩ := h
    rw [eq_of_names hns]
    exact ⟨name, nameSpan, ns, fieldsSpan, rfl, rfl⟩
  · cases h

theorem draft_lambda (hform : head.form? = some .lambda) (h : (list (head :: rest) span).draft = .ok d) :
    ∃ ns parametersSpan body value, rest = [.list (ns.map ofName) parametersSpan, body] ∧ body.draft = .ok value ∧
      d = .mk span "lambda expression" (.lambda (Draft.ofNames "parameters" parametersSpan ns) value) := by
  unfold draft at h
  simp only [hform] at h
  split at h
  · next parameters parametersSpan body =>
    simp only [ok_bind_iff, ok_pure_iff] at h
    obtain ⟨ns, hns, value, hvalue, rfl⟩ := h
    rw [eq_of_names hns]
    exact ⟨ns, parametersSpan, body, value, rfl, hvalue, rfl⟩
  · cases h

theorem draft_ifElse (hform : head.form? = some .ifElse) (h : (list (head :: rest) span).draft = .ok d) :
    ∃ test consequent alternative test' consequent' alternative', rest = [test, consequent, alternative] ∧
      test.draft = .ok test' ∧ consequent.draft = .ok consequent' ∧ alternative.draft = .ok alternative' ∧
      d = .mk span "if expression" (.ifElse test' consequent' alternative') := by
  unfold draft at h
  simp only [hform] at h
  split at h
  · next test consequent alternative =>
    simp only [ok_bind_iff, ok_pure_iff] at h
    obtain ⟨test', htest, consequent', hconsequent, alternative', halternative, rfl⟩ := h
    exact ⟨test, consequent, alternative, test', consequent', alternative', rfl, htest, hconsequent, halternative, rfl⟩
  · cases h

theorem draft_cond (hform : head.form? = some .cond) (h : (list (head :: rest) span).draft = .ok d) :
    ∃ clauses, rest ≠ [] ∧ draftClauses rest = .ok clauses ∧
      d = .mk span ("cond expression with " ++ Text.pluralize "condition" clauses.length) (.conditional clauses) := by
  unfold draft at h
  simp only [hform] at h
  split at h
  · cases h
  · next hne =>
    simp only [ok_bind_iff, ok_pure_iff] at h
    obtain ⟨clauses, hclauses, rfl⟩ := h
    exact ⟨clauses, hne, hclauses, rfl⟩

theorem draft_begin (hform : head.form? = some .begin) (h : (list (head :: rest) span).draft = .ok d) :
    ∃ expressions, rest ≠ [] ∧ draftAll rest = .ok expressions ∧
      d = .mk span "begin expression" (.sequence "begin" expressions) := by
  unfold draft at h
  simp only [hform] at h
  split at h
  · cases h
  · next hne =>
    simp only [ok_bind_iff, ok_pure_iff] at h
    obtain ⟨expressions, hexpressions, rfl⟩ := h
    exact ⟨expressions, hne, hexpressions, rfl⟩

theorem draft_guarded {variety : GuardVariety} (hform : head.form? = some (.guarded variety))
    (h : (list (head :: rest) span).draft = .ok d) :
    ∃ predicate first others predicate' expressions, rest = predicate :: first :: others ∧
      predicate.draft = .ok predicate' ∧ draftAll (first :: others) = .ok expressions ∧
      d = .mk span (variety.word ++ " expression") (.whenForm variety.word predicate'
        (.mk (spanOfAll first others) (Text.pluralize "expression" expressions.length)
          (.sequence "begin" expressions))) := by
  unfold draft at h
  simp only [hform] at h
  split at h
  · next predicate first others =>
    simp only [ok_bind_iff, ok_pure_iff] at h
    obtain ⟨predicate', hpredicate, expressions, hexpressions, rfl⟩ := h
    exact ⟨predicate, first, others, predicate', expressions, rfl, hpredicate, hexpressions, rfl⟩
  · cases h

theorem draft_letForm {variety : LetVariety} (hform : head.form? = some (.letForm variety))
    (h : (list (head :: rest) span).draft = .ok d) :
    ∃ bindings bindingsSpan body definitions value, rest = [.list bindings bindingsSpan, body] ∧
      draftBindings variety bindings = .ok definitions ∧ body.draft = .ok value ∧
      d = .mk span (variety.word ++ " expression") (.letForm variety.word
        (.mk bindingsSpan (Text.pluralize "binding" definitions.length) (.sequence "bindings" definitions)) value) := by
  unfold draft at h
  simp only [hform] at h
  split at h
  · next bindings bindingsSpan body =>
    simp only [ok_bind_iff, ok_pure_iff] at h
    obtain ⟨definitions, hdefinitions, value, hvalue, rfl⟩ := h
    exact ⟨bindings, bindingsSpan, body, definitions, value, rfl, hdefinitions, hvalue, rfl⟩
  · cases h

end Demands

/-! ## Drafts are readings -/

mutual

theorem reads_of_draft : ∀ (datum : Datum) {d : Draft}, datum.draft = .ok d → Reads .expression datum d
  | .atom text span, d, h => by
    cases h
    exact .atom text span
  | .string text span, d, h => by
    cases h
    exact .string text span
  | .list [] span, d, h => by
    cases h
    exact .emptyList span
  | .list (head :: rest) span, d, h => by
    cases hform : head.form? with
    | none =>
      obtain ⟨function, arguments, hfunction, harguments, rfl⟩ := draft_application hform h
      obtain ⟨ps, rfl, rfl, hps⟩ := reads_of_draftAll rest harguments
      exact .application span hform (reads_of_draft head hfunction) hps
    | some form =>
      cases form with
      | define =>
        obtain ⟨name, nameSpan, body, value, rfl, hvalue, rfl⟩ |
          ⟨name, nameSpan, headerSpan, ns, body, value, rfl, hvalue, rfl⟩ := draft_define hform h
        · exact .variableDefinition name nameSpan span hform (reads_of_draft body hvalue)
        · exact .functionDefinition name nameSpan headerSpan span ns hform (reads_of_draft body hvalue)
      | defineStruct =>
        obtain ⟨name, nameSpan, ns, fieldsSpan, rfl, rfl⟩ := draft_defineStruct hform h
        exact .structDefinition name nameSpan fieldsSpan span ns hform
      | lambda =>
        obtain ⟨ns, parametersSpan, body, value, rfl, hvalue, rfl⟩ := draft_lambda hform h
        exact .lambda parametersSpan span ns hform (reads_of_draft body hvalue)
      | ifElse =>
        obtain ⟨test, consequent, alternative, test', consequent', alternative', rfl, htest, hconsequent,
          halternative, rfl⟩ := draft_ifElse hform h
        exact .ifElse span hform (reads_of_draft test htest) (reads_of_draft consequent hconsequent)
          (reads_of_draft alternative halternative)
      | cond =>
        obtain ⟨clauses, hne, hclauses, rfl⟩ := draft_cond hform h
        obtain ⟨ps, rfl, rfl, hps⟩ := reads_of_draftClauses rest hclauses
        rw [List.length_map]
        exact .conditional span hform (mt (congrArg _) hne) hps
      | begin =>
        obtain ⟨expressions, hne, hexpressions, rfl⟩ := draft_begin hform h
        obtain ⟨ps, rfl, rfl, hps⟩ := reads_of_draftAll rest hexpressions
        exact .begin span hform (mt (congrArg _) hne) hps
      | guarded variety =>
        obtain ⟨predicate, first, others, predicate', expressions, rfl, hpredicate, hexpressions, rfl⟩ :=
          draft_guarded hform h
        obtain ⟨d, ps, rfl, rfl, hps⟩ := (reads_of_draftAll (first :: others) hexpressions).exists_cons
        rw [List.length_cons, List.length_map]
        exact .guarded span hform (reads_of_draft predicate hpredicate) hps
      | letForm variety =>
        obtain ⟨bindings, bindingsSpan, body, definitions, value, rfl, hdefinitions, hvalue, rfl⟩ :=
          draft_letForm hform h
        obtain ⟨ps, rfl, rfl, hps⟩ := reads_of_draftBindings variety bindings hdefinitions
        rw [List.length_map]
        exact .letForm bindingsSpan span hform hps (reads_of_draft body hvalue)
termination_by datum => sizeOf datum
decreasing_by
  all_goals
    subst_vars
    simp only [Datum.list.sizeOf_spec, List.cons.sizeOf_spec, List.nil.sizeOf_spec]
    omega

theorem reads_of_draftAll : ∀ (data : List Datum) {ds : List Draft}, draftAll data = .ok ds →
    ReadsAll .expression data ds
  | [], ds, h => by
    cases h
    exact .nil _
  | datum :: rest, ds, h => by
    simp only [draftAll, ok_bind_iff, ok_pure_iff] at h
    obtain ⟨d, hd, others, hothers, rfl⟩ := h
    exact .cons (reads_of_draft datum hd) (reads_of_draftAll rest hothers)
termination_by data => sizeOf data
decreasing_by
  all_goals
    subst_vars
    simp only [List.cons.sizeOf_spec]
    omega

theorem reads_of_draftClauses : ∀ (data : List Datum) {ds : List Draft}, draftClauses data = .ok ds →
    ReadsAll .clause data ds
  | [], ds, h => by
    cases h
    exact .nil _
  | .list (test :: consequent :: others) span :: rest, ds, h => by
    simp only [draftClauses, ok_bind_iff, ok_pure_iff] at h
    obtain ⟨test', htest, consequents, hconsequents, clauses, hclauses, rfl⟩ := h
    refine .cons ?_ (reads_of_draftClauses rest hclauses)
    obtain ⟨d, ps, rfl, rfl, hps⟩ := (reads_of_draftAll (consequent :: others) hconsequents).exists_cons
    exact .clause span (List.cons_ne_nil (consequent, d) ps) (reads_of_draft test htest) hps
  | .list [_] _ :: _, _, h | .list [] _ :: _, _, h | .atom .. :: _, _, h | .string .. :: _, _, h => by
    cases h
termination_by data => sizeOf data
decreasing_by
  all_goals
    subst_vars
    simp only [Datum.list.sizeOf_spec, List.cons.sizeOf_spec]
    omega

theorem reads_of_draftBindings (variety : LetVariety) : ∀ (data : List Datum) {ds : List Draft},
    draftBindings variety data = .ok ds → ReadsAll .binding data ds
  | [], ds, h => by
    cases h
    exact .nil _
  | .list [.atom name nameSpan, value] span :: rest, ds, h => by
    simp only [draftBindings, ok_bind_iff, ok_pure_iff] at h
    obtain ⟨value', hvalue, definitions, hdefinitions, rfl⟩ := h
    exact .cons (.binding name nameSpan span (reads_of_draft value hvalue))
      (reads_of_draftBindings variety rest hdefinitions)
  | .atom .. :: _, _, h | .string .. :: _, _, h | .list [] _ :: _, _, h | .list [_] _ :: _, _, h
  | .list (.string .. :: _) _ :: _, _, h | .list (.list .. :: _) _ :: _, _, h
  | .list (_ :: _ :: _ :: _) _ :: _, _, h => by
    simp [draftBindings, malformed] at h
termination_by data => sizeOf data
decreasing_by
  all_goals
    subst_vars
    simp only [Datum.list.sizeOf_spec, List.cons.sizeOf_spec, List.nil.sizeOf_spec]
    omega

end

/-! ## Readings are drafts -/

/-- The draft is made of the datum in its slot, where that is one of a list whatever stands after it. -/
def Makes : Slot → Datum → Draft → Prop
  | .expression, datum, d => datum.draft = .ok d
  | .clause, datum, d => ∀ rest ds, draftClauses rest = .ok ds → draftClauses (datum :: rest) = .ok (d :: ds)
  | .binding, datum, d => ∀ variety rest ds, draftBindings variety rest = .ok ds →
    draftBindings variety (datum :: rest) = .ok (d :: ds)
  | .bindings, _, _ | .body, _, _ => False

theorem draftAll_of_makes {ps : List (Datum × Draft)} (h : ∀ p ∈ ps, Makes .expression p.1 p.2) :
    draftAll (ps.map Prod.fst) = .ok (ps.map Prod.snd) := by
  induction ps with
  | nil => rw [List.map_nil, draftAll, List.map_nil]
  | cons p ps ih =>
    obtain ⟨hp, hps⟩ := List.forall_mem_cons.mp h
    have hdraft : p.1.draft = .ok p.2 := hp
    rw [List.map_cons, draftAll, hdraft, ih hps]
    rfl

theorem draftClauses_of_makes {ps : List (Datum × Draft)} (h : ∀ p ∈ ps, Makes .clause p.1 p.2) :
    draftClauses (ps.map Prod.fst) = .ok (ps.map Prod.snd) := by
  induction ps with
  | nil => rw [List.map_nil, draftClauses, List.map_nil]
  | cons p ps ih =>
    obtain ⟨hp, hps⟩ := List.forall_mem_cons.mp h
    exact hp _ _ (ih hps)

theorem draftBindings_of_makes (variety : LetVariety) {ps : List (Datum × Draft)}
    (h : ∀ p ∈ ps, Makes .binding p.1 p.2) :
    draftBindings variety (ps.map Prod.fst) = .ok (ps.map Prod.snd) := by
  induction ps with
  | nil => rw [List.map_nil, draftBindings, List.map_nil]
  | cons p ps ih =>
    obtain ⟨hp, hps⟩ := List.forall_mem_cons.mp h
    exact hp variety _ _ (ih hps)

theorem makes_of_reads {slot : Slot} {datum : Datum} {d : Draft} (h : Reads slot datum d) : Makes slot datum d := by
  induction h with
  | atom text span => exact draft_atom text span
  | string text span => exact draft_string text span
  | emptyList span => exact draft_emptyList span
  | application span hform _ _ ihhead iharguments =>
    rw [Makes] at ihhead
    unfold Makes draft
    simp only [hform, ihhead, draftAll_of_makes iharguments]
    rfl
  | variableDefinition name nameSpan span hform _ ih =>
    rw [Makes] at ih
    unfold Makes draft
    simp only [hform, ih]
    rfl
  | functionDefinition name nameSpan headerSpan span parameters hform _ ih =>
    rw [Makes] at ih
    unfold Makes draft
    simp only [hform, ih, names_ofName]
    rfl
  | structDefinition name nameSpan fieldsSpan span fields hform =>
    unfold Makes draft
    simp only [hform, names_ofName]
    rfl
  | lambda parametersSpan span parameters hform _ ih =>
    rw [Makes] at ih
    unfold Makes draft
    simp only [hform, ih, names_ofName]
    rfl
  | ifElse span hform _ _ _ ihtest ihconsequent ihalternative =>
    rw [Makes] at ihtest ihconsequent ihalternative
    unfold Makes draft
    simp only [hform, ihtest, ihconsequent, ihalternative]
    rfl
  | @conditional head clauses span hform hne _ ih =>
    obtain ⟨clause, others, rfl⟩ := List.exists_cons_of_ne_nil hne
    have hlength : (others.map Prod.snd).length = others.length := List.length_map _
    have hclauses := draftClauses_of_makes ih
    rw [List.map_cons] at hclauses
    unfold Makes draft
    simp only [hform, List.map_cons, hclauses]
    rw [List.length_cons, ← hlength]
    rfl
  | @clause test test' consequents span hne _ _ ihtest ih =>
    obtain ⟨consequent, others, rfl⟩ := List.exists_cons_of_ne_nil hne
    intro rest ds hrest
    have hconsequents := draftAll_of_makes ih
    rw [Makes] at ihtest
    rw [List.map_cons] at hconsequents
    simp only [List.map_cons, draftClauses, ihtest, hconsequents, hrest]
    rfl
  | @begin head expressions span hform hne _ ih =>
    obtain ⟨expression, others, rfl⟩ := List.exists_cons_of_ne_nil hne
    have hexpressions := draftAll_of_makes ih
    rw [List.map_cons] at hexpressions
    unfold Makes draft
    simp only [hform, List.map_cons, hexpressions]
    rfl
  | @guarded variety head predicate predicate' first others span hform _ _ ihpredicate ih =>
    have hlength : (others.map Prod.snd).length = others.length := List.length_map _
    have hexpressions := draftAll_of_makes ih
    rw [Makes] at ihpredicate
    rw [List.map_cons] at hexpressions
    unfold Makes draft
    simp only [hform, ihpredicate, hexpressions]
    rw [← hlength]
    rfl
  | letForm bindingsSpan span hform _ _ ih ihbody =>
    rw [Makes] at ihbody
    unfold Makes draft
    simp only [hform, ihbody, draftBindings_of_makes _ ih]
    rw [← List.length_map Prod.snd]
    rfl
  | binding name nameSpan span _ ih =>
    intro variety rest ds hrest
    rw [Makes] at ih
    simp only [draftBindings, ih, hrest]
    rfl

theorem draftAll_of_readsAll {data : List Datum} {ds : List Draft} (h : ReadsAll .expression data ds) :
    draftAll data = .ok ds := by
  obtain ⟨ps, rfl, rfl, hps⟩ := h
  exact draftAll_of_makes fun p hp => makes_of_reads (hps p hp)

end Datum

end StructuralEditor.Scheme
