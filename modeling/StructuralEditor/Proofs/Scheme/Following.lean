import StructuralEditor.Proofs.Scheme.Agreement

/-!
# Drafts of data that agree up to a position

* `Draft.Follows` : on the way along some steps, whatever starts before a position in one draft is in the other too;
* `Carries` : the drafts of data that meet at the position follow each other;
* `carries_application`, ..., `carries_binding` : so it is for the forms of lists, one by one, if it is for their parts;
* `Reads.carries` : so it is for all data.
-/

namespace StructuralEditor.Scheme

/-! ## Drafts that follow each other -/

namespace Draft

variable {q : Position}

def Near (q : Position) (d : Draft) : Prop := d.span.start < q ∧ d.span.start < d.span.stop

/-- The second draft has the form of the first, but goes on behind the position, after the same first child. -/
structure Outgrown (q : Position) (d d' : Draft) : Prop where
  tag : d.kind.tag = d'.kind.tag
  stop : q < d'.span.stop
  first : ∃ c ∈ d.kind.children.head?, c ∈ d'.kind.children.head? ∧ c.Near q

/-- On the way along the steps, as far as drafts start before the position, the second draft has the forms of the first.
What ends by the position at the end of the way is the same in both, unless the second goes on there. -/
def Follows (q : Position) : List Step → Draft → Draft → Prop
  | [], d, d' => d.span.stop ≤ q → d = d' ∨ Outgrown q d d'
  | step :: rest, d, d' => ∀ c, d.kind.child? step = some c → c.Near q →
    d.kind.tag = d'.kind.tag ∧ ∃ c', d'.kind.child? step = some c' ∧ Follows q rest c c'

theorem Follows.refl (steps : List Step) (d : Draft) : Follows q steps d d := by
  induction steps generalizing d with
  | nil => exact fun _ => .inl rfl
  | cons step rest ih => exact fun c hc _ => ⟨rfl, c, hc, ih c⟩

/-- What starts before the position in one field, stands at the same index in the other, and is followed. -/
def FieldFollows (q : Position) (f f' : Field Draft) : Prop :=
  ∀ (i : Nat) (c : Draft), f.nodes[i]? = some c → c.Near q →
    ∃ c', f'.nodes[i]? = some c' ∧ ∀ steps, Follows q steps c c'

theorem FieldFollows.one {d d' : Draft} (h : d.Near q → ∀ steps, Follows q steps d d') :
    FieldFollows q (.one (some d)) (.one (some d')) := by
  intro i c hc hnear
  obtain rfl : i = 0 := by
    by_contra hne
    simp [Field.nodes, hne] at hc
  cases hc
  exact ⟨d', rfl, h hnear⟩

theorem follows_of_fields {d d' : Draft} (hend : d.span.stop ≤ q → d = d' ∨ Outgrown q d d')
    (h : ∀ c ∈ d.kind.children, c.Near q →
      d.kind.tag = d'.kind.tag ∧ List.Forall₂ (FieldFollows q) d.kind.fields d'.kind.fields) (steps : List Step) :
    Follows q steps d d' := by
  cases steps with
  | nil => exact hend
  | cons step rest =>
    intro c hc hnear
    obtain ⟨htag, hfields⟩ := h c (Kind.mem_children_iff.mpr ⟨step, hc⟩) hnear
    obtain ⟨f, hf, hc⟩ := Option.bind_eq_some_iff.mp hc
    obtain ⟨f', hf', hfollows⟩ := exists_getElem?_of_forall₂ hfields hf
    obtain ⟨c', hc', hsteps⟩ := hfollows _ c hc hnear
    exact ⟨htag, c', Option.bind_eq_some_iff.mpr ⟨f', hf', hc'⟩, hsteps rest⟩

end Draft

/-! ## Readings -/

theorem Reads.unique {slot : Slot} {datum : Datum} {d d' : Draft} (h : Reads slot datum d) (h' : Reads slot datum d') :
    d = d' := by
  have hd := Datum.makes_of_reads h
  have hd' := Datum.makes_of_reads h'
  cases slot with
  | expression => exact Except.ok.inj (hd.symm.trans hd')
  | clause =>
    have heq := (hd [] [] (by rw [Datum.draftClauses])).symm.trans (hd' [] [] (by rw [Datum.draftClauses]))
    exact (List.cons.inj (Except.ok.inj heq)).1
  | binding =>
    have heq := (hd .parallel [] [] (by rw [Datum.draftBindings])).symm.trans
      (hd' .parallel [] [] (by rw [Datum.draftBindings]))
    exact (List.cons.inj (Except.ok.inj heq)).1
  | bindings | body => exact hd.elim

theorem eq_of_reads {slot : Slot} {ps ps' : List (Datum × Draft)} (hps : ∀ p ∈ ps, Reads slot p.1 p.2)
    (hps' : ∀ p ∈ ps', Reads slot p.1 p.2) (h : ps.map Prod.fst = ps'.map Prod.fst) : ps = ps' := by
  induction ps generalizing ps' with
  | nil => exact (List.map_eq_nil_iff.mp h.symm).symm
  | cons p ps ih =>
    obtain ⟨p', ps', rfl, hp, hrest⟩ := List.map_eq_cons_iff.mp h.symm
    obtain ⟨hread, hreads⟩ := List.forall_mem_cons.mp hps
    obtain ⟨hread', hreads'⟩ := List.forall_mem_cons.mp hps'
    rw [hp] at hread'
    rw [ih hreads hreads' hrest.symm, Prod.ext hp.symm (hread.unique hread')]

/-! ## Forms -/

/-- The drafts of all data that meet this one at the position follow its draft. -/
def Carries (q : Position) (slot : Slot) (datum : Datum) (d : Draft) : Prop :=
  ∀ datum' d', Reads slot datum' d' → datum.Meets q datum' → ∀ steps, d.Follows q steps d'

section Forms

open Draft

variable {q : Position} {slot : Slot} {datum datum' head body test consequent alternative predicate value : Datum}
  {d d' function value' test' consequent' alternative' predicate' : Draft} {ps ps' : List (Datum × Draft)} {s : Span}

theorem carries_atom (text : String) (s : Span) : Carries q .expression (.atom text s) (Draft.ofAtom text s) := by
  intro datum' d' hd' hmeets steps
  cases hmeets with
  | refl _ => exact (Reads.atom text s).unique hd' ▸ .refl steps _

theorem carries_string (text : String) (s : Span) :
    Carries q .expression (.string text s) (.mk s text (.literal text "string")) := by
  intro datum' d' hd' hmeets steps
  cases hmeets with
  | refl _ => exact (Reads.string text s).unique hd' ▸ .refl steps _

theorem fieldFollows_one (h : Carries q slot datum d) (hd : Reads slot datum d) (hd' : Reads slot datum' d')
    (hmeets : datum.span.start < q → datum.Meets q datum') : FieldFollows q (.one (some d)) (.one (some d')) :=
  .one fun hnear => h datum' d' hd' (hmeets (hd.span_eq ▸ hnear.1))

theorem fieldFollows_many (h : ∀ p ∈ ps, Carries q slot p.1 p.2) (hps : ∀ p ∈ ps, Reads slot p.1 p.2)
    (hps' : ∀ p ∈ ps', Reads slot p.1 p.2) (hagree : Datum.Agree q (ps.map Prod.fst) (ps'.map Prod.fst)) :
    FieldFollows q (.many (ps.map Prod.snd)) (.many (ps'.map Prod.snd)) := by
  intro i c hc hnear
  have hi : (ps.map Prod.snd)[i]? = some c := hc
  rw [List.getElem?_map, Option.map_eq_some_iff] at hi
  obtain ⟨p, hp, rfl⟩ := hi
  have hmem := List.mem_of_getElem? hp
  obtain ⟨e, he, hmeets⟩ := hagree.exists_getElem? (i := i) (by rw [List.getElem?_map, hp]; rfl)
    ((hps p hmem).span_eq ▸ hnear.1)
  rw [List.getElem?_map, Option.map_eq_some_iff] at he
  obtain ⟨p', hp', rfl⟩ := he
  exact ⟨p'.2, by simp [Field.nodes, hp'], h p hmem p'.1 p'.2 (hps' p' (List.mem_of_getElem? hp')) hmeets⟩

/-- A list carries its draft, if whatever agrees with its parts does that for the children. -/
theorem carries_list {parts : List Datum} (hd : Reads slot (.list parts s) d)
    (h : ∀ parts' s' d', Reads slot (.list parts' s') d' → (∃ x ∈ parts.head?, x.span.start < q) →
      Datum.Agree q parts parts' → ∀ c ∈ d.kind.children, c.Near q →
      d.kind.tag = d'.kind.tag ∧ List.Forall₂ (FieldFollows q) d.kind.fields d'.kind.fields) :
    Carries q slot (.list parts s) d := by
  intro datum' d' hd' hmeets
  cases hmeets with
  | refl _ => exact fun steps => hd.unique hd' ▸ .refl steps d
  | around hstop hfirst hparts =>
    refine follows_of_fields (fun hle => ?_) (h _ _ d' hd' hfirst hparts)
    rw [hd.span_eq] at hle
    exact absurd hstop (not_lt.mpr hle)

/-- The same for an expression: what agrees with it is a list of the same form. -/
theorem carries_form {rest : List Datum} (hd : Reads .expression (.list (head :: rest) s) d)
    (h : ∀ head' rest' s' d', (Datum.list (head' :: rest') s').draft = .ok d' → head'.form? = head.form? →
      head.Meets q head' → Datum.Agree q rest rest' → ∀ c ∈ d.kind.children, c.Near q →
      d.kind.tag = d'.kind.tag ∧ List.Forall₂ (FieldFollows q) d.kind.fields d'.kind.fields) :
    Carries q .expression (.list (head :: rest) s) d := by
  refine carries_list hd fun parts' s' d' hd' hfirst hparts => ?_
  obtain ⟨x, hx, hlt⟩ := hfirst
  cases hx
  obtain ⟨head', rest', rfl, hmeets, hrest⟩ := hparts.exists_cons
    (Datum.mem_spansOf_iff.mpr ⟨head, List.mem_cons_self, head.span_mem_spans⟩) hlt
  exact h head' rest' s' d' (Datum.makes_of_reads hd') hmeets.form?_eq hmeets hrest

theorem carries_application (hform : head.form? = none) (hhead : Reads .expression head function)
    (hps : ∀ p ∈ ps, Reads .expression p.1 p.2) (ihhead : Carries q .expression head function)
    (ih : ∀ p ∈ ps, Carries q .expression p.1 p.2) (s : Span) :
    Carries q .expression (.list (head :: ps.map Prod.fst) s)
      (.mk s (Datum.applicationLabel head) (.application function (ps.map Prod.snd))) := by
  refine carries_form (.application s hform hhead hps) fun head' rest' s' d' hd' hform' hmeets hrest c _ _ => ?_
  obtain ⟨function', arguments', hfunction', harguments', rfl⟩ := Datum.draft_application (hform'.trans hform) hd'
  obtain ⟨ps', rfl, rfl, hps'⟩ := Datum.reads_of_draftAll _ harguments'
  exact ⟨rfl, .cons (fieldFollows_one ihhead hhead (Datum.reads_of_draft _ hfunction') fun _ => hmeets)
    (.cons (fieldFollows_many ih hps hps' hrest) .nil)⟩

theorem carries_ifElse (hform : head.form? = some .ifElse) (htest : Reads .expression test test')
    (hconsequent : Reads .expression consequent consequent') (halternative : Reads .expression alternative alternative')
    (ihtest : Carries q .expression test test') (ihconsequent : Carries q .expression consequent consequent')
    (ihalternative : Carries q .expression alternative alternative') (s : Span) :
    Carries q .expression (.list [head, test, consequent, alternative] s)
      (.mk s "if expression" (.ifElse test' consequent' alternative')) := by
  refine carries_form (.ifElse s hform htest hconsequent halternative)
    fun head' rest' s' d' hd' hform' _ hrest c _ _ => ?_
  obtain ⟨_, _, _, _, _, _, rfl, ht, hc, ha, rfl⟩ := Datum.draft_ifElse (hform'.trans hform) hd'
  exact ⟨rfl, .cons (fieldFollows_one ihtest htest (Datum.reads_of_draft _ ht) (hrest.meets 0 rfl rfl))
    (.cons (fieldFollows_one ihconsequent hconsequent (Datum.reads_of_draft _ hc) (hrest.meets 1 rfl rfl))
    (.cons (fieldFollows_one ihalternative halternative (Datum.reads_of_draft _ ha) (hrest.meets 2 rfl rfl)) .nil))⟩

/-! ### Names -/

theorem fieldFollows_names {ns ns' : List (String × Span)}
    (h : Datum.Agree q (ns.map Datum.ofName) (ns'.map Datum.ofName)) :
    FieldFollows q (.many (ns.map fun (name, span) => Draft.ofAtom name span))
      (.many (ns'.map fun (name, span) => Draft.ofAtom name span)) := by
  have hreads : ∀ ns : List (String × Span), ∀ p ∈ ns.map fun n => (Datum.ofName n, Draft.ofAtom n.1 n.2),
      Reads .expression p.1 p.2 := by
    intro ns p hp
    obtain ⟨n, -, rfl⟩ := List.mem_map.mp hp
    exact .atom n.1 n.2
  rw [← map_fst_names, ← map_fst_names] at h
  have hmany := fieldFollows_many (fun p hp => ?_) (hreads ns) (hreads ns') h
  · rwa [List.map_map, List.map_map] at hmany
  · obtain ⟨n, -, rfl⟩ := List.mem_map.mp hp
    exact carries_atom n.1 n.2

theorem ofName_injective : Function.Injective Datum.ofName := by
  rintro ⟨text, span⟩ ⟨text', span'⟩ h
  injection h with htext hspan
  exact Prod.ext htext hspan

theorem follows_ofNames {ns ns' : List (String × Span)} {s' : Span} (role : String)
    (h : (Datum.list (ns.map Datum.ofName) s).Meets q (.list (ns'.map Datum.ofName) s')) (steps : List Step) :
    (Draft.ofNames role s ns).Follows q steps (Draft.ofNames role s' ns') := by
  refine follows_of_fields (fun hle => ?_) (fun c _ _ => ?_) steps
  case refine_2 => exact ⟨rfl, .cons (fieldFollows_names h.parts) .nil⟩
  generalize hdata : ns.map Datum.ofName = data at h
  generalize hdata' : ns'.map Datum.ofName = data' at h
  cases h with
  | refl _ => exact .inl (by rw [List.map_injective_iff.mpr ofName_injective (hdata.trans hdata'.symm)])
  | around hstop _ _ => exact absurd hstop (not_lt.mpr hle)

theorem carries_structDefinition {ns : List (String × Span)} {name : String} {nameSpan fieldsSpan : Span}
    (hform : head.form? = some .defineStruct) (s : Span) :
    Carries q .expression (.list [head, .atom name nameSpan, .list (ns.map Datum.ofName) fieldsSpan] s)
      (.mk s ("define-struct " ++ name)
        (.structDefinition (Draft.ofAtom name nameSpan) (Draft.ofNames "fields" fieldsSpan ns))) := by
  refine carries_form (.structDefinition name nameSpan fieldsSpan s ns hform)
    fun head' rest' s' d' hd' hform' _ hrest c _ _ => ?_
  obtain ⟨name', nameSpan', ns', _, rfl, rfl⟩ := Datum.draft_defineStruct (hform'.trans hform) hd'
  exact ⟨rfl, .cons (fieldFollows_one (carries_atom name nameSpan) (.atom name nameSpan) (.atom name' nameSpan')
    (hrest.meets 0 rfl rfl))
    (.cons (.one fun hnear => follows_ofNames "fields" (hrest.meets 1 rfl rfl hnear.1)) .nil)⟩

theorem carries_lambda {ns : List (String × Span)} {parametersSpan : Span} (hform : head.form? = some .lambda)
    (hbody : Reads .expression body value') (ihbody : Carries q .expression body value') (s : Span) :
    Carries q .expression (.list [head, .list (ns.map Datum.ofName) parametersSpan, body] s)
      (.mk s "lambda expression" (.lambda (Draft.ofNames "parameters" parametersSpan ns) value')) := by
  refine carries_form (.lambda parametersSpan s ns hform hbody) fun head' rest' s' d' hd' hform' _ hrest c _ _ => ?_
  obtain ⟨ns', _, _, _, rfl, hvalue, rfl⟩ := Datum.draft_lambda (hform'.trans hform) hd'
  exact ⟨rfl, .cons (.one fun hnear => follows_ofNames "parameters" (hrest.meets 0 rfl rfl hnear.1))
    (.cons (fieldFollows_one ihbody hbody (Datum.reads_of_draft _ hvalue) (hrest.meets 1 rfl rfl)) .nil)⟩

/-! ### Lists of expressions -/

theorem carries_conditional (hform : head.form? = some .cond) (hne : ps ≠ []) (hps : ∀ p ∈ ps, Reads .clause p.1 p.2)
    (ih : ∀ p ∈ ps, Carries q .clause p.1 p.2) (s : Span) :
    Carries q .expression (.list (head :: ps.map Prod.fst) s)
      (.mk s ("cond expression with " ++ Text.pluralize "condition" ps.length) (.conditional (ps.map Prod.snd))) := by
  refine carries_form (.conditional s hform hne hps) fun head' rest' s' d' hd' hform' _ hrest c _ _ => ?_
  obtain ⟨clauses, _, hclauses, rfl⟩ := Datum.draft_cond (hform'.trans hform) hd'
  obtain ⟨ps', rfl, rfl, hps'⟩ := Datum.reads_of_draftClauses _ hclauses
  exact ⟨rfl, .cons (fieldFollows_many ih hps hps' hrest) .nil⟩

theorem carries_clause (hne : ps ≠ []) (htest : Reads .expression test test')
    (hps : ∀ p ∈ ps, Reads .expression p.1 p.2) (ihtest : Carries q .expression test test')
    (ih : ∀ p ∈ ps, Carries q .expression p.1 p.2) (s : Span) :
    Carries q .clause (.list (test :: ps.map Prod.fst) s) (.mk s "condition" (.clause test' (ps.map Prod.snd))) := by
  refine carries_list (.clause s hne htest hps) fun parts' s' d' hd' hfirst hparts c _ _ => ?_
  obtain ⟨x, hx, hlt⟩ := hfirst
  cases hx
  cases hd' with
  | @clause test' test'' ps' _ hne' htest' hps' =>
    obtain ⟨_, _, heq, hmeets, hrest⟩ := hparts.exists_cons
      (Datum.mem_spansOf_iff.mpr ⟨test, List.mem_cons_self, test.span_mem_spans⟩) hlt
    cases heq
    exact ⟨rfl, .cons (fieldFollows_one ihtest htest htest' fun _ => hmeets)
      (.cons (fieldFollows_many ih hps hps' hrest) .nil)⟩

theorem carries_begin (hform : head.form? = some .begin) (hne : ps ≠ []) (hps : ∀ p ∈ ps, Reads .expression p.1 p.2)
    (ih : ∀ p ∈ ps, Carries q .expression p.1 p.2) (s : Span) :
    Carries q .expression (.list (head :: ps.map Prod.fst) s)
      (.mk s "begin expression" (.sequence "begin" (ps.map Prod.snd))) := by
  refine carries_form (.begin s hform hne hps) fun head' rest' s' d' hd' hform' _ hrest c _ _ => ?_
  obtain ⟨expressions, _, hexpressions, rfl⟩ := Datum.draft_begin (hform'.trans hform) hd'
  obtain ⟨ps', rfl, rfl, hps'⟩ := Datum.reads_of_draftAll _ hexpressions
  exact ⟨rfl, .cons (fieldFollows_many ih hps hps' hrest) .nil⟩

theorem carries_binding (name : String) (nameSpan : Span) (hvalue : Reads .expression value value')
    (ihvalue : Carries q .expression value value') (s : Span) :
    Carries q .binding (.list [.atom name nameSpan, value] s)
      (.mk s ("bind " ++ name) (.variableDefinition (Draft.ofAtom name nameSpan) value')) := by
  refine carries_list (.binding name nameSpan s hvalue) fun parts' s' d' hd' _ hparts c _ _ => ?_
  cases hd' with
  | binding name' nameSpan' _ hvalue' =>
    exact ⟨rfl, .cons (fieldFollows_one (carries_atom name nameSpan) (.atom name nameSpan) (.atom name' nameSpan')
      (hparts.meets 0 rfl rfl)) (.cons (fieldFollows_one ihvalue hvalue hvalue' (hparts.meets 1 rfl rfl)) .nil)⟩

theorem follows_bindings {s' : Span} (hps : ∀ p ∈ ps, Reads .binding p.1 p.2) (hps' : ∀ p ∈ ps', Reads .binding p.1 p.2)
    (ih : ∀ p ∈ ps, Carries q .binding p.1 p.2)
    (h : (Datum.list (ps.map Prod.fst) s).Meets q (.list (ps'.map Prod.fst) s')) (steps : List Step) :
    (Draft.mk s (Text.pluralize "binding" ps.length) (.sequence "bindings" (ps.map Prod.snd))).Follows q steps
      (.mk s' (Text.pluralize "binding" ps'.length) (.sequence "bindings" (ps'.map Prod.snd))) := by
  refine follows_of_fields (fun hle => ?_) (fun c _ _ => ?_) steps
  case refine_2 => exact ⟨rfl, .cons (fieldFollows_many ih hps hps' h.parts) .nil⟩
  generalize hdata : ps.map Prod.fst = data at h
  generalize hdata' : ps'.map Prod.fst = data' at h
  cases h with
  | refl _ => exact .inl (by rw [eq_of_reads hps hps' (hdata.trans hdata'.symm)])
  | around hstop _ _ => exact absurd hstop (not_lt.mpr hle)

theorem carries_letForm {variety : LetVariety} {bindingsSpan : Span} (hform : head.form? = some (.letForm variety))
    (hps : ∀ p ∈ ps, Reads .binding p.1 p.2) (hbody : Reads .expression body value')
    (ih : ∀ p ∈ ps, Carries q .binding p.1 p.2) (ihbody : Carries q .expression body value') (s : Span) :
    Carries q .expression (.list [head, .list (ps.map Prod.fst) bindingsSpan, body] s)
      (.mk s (variety.word ++ " expression") (.letForm variety.word
        (.mk bindingsSpan (Text.pluralize "binding" ps.length) (.sequence "bindings" (ps.map Prod.snd))) value')) := by
  refine carries_form (.letForm bindingsSpan s hform hps hbody) fun head' rest' s' d' hd' hform' _ hrest c _ _ => ?_
  obtain ⟨bindings, _, _, definitions, _, rfl, hdefinitions, hvalue, rfl⟩ :=
    Datum.draft_letForm (hform'.trans hform) hd'
  obtain ⟨ps', rfl, rfl, hps'⟩ := Datum.reads_of_draftBindings variety _ hdefinitions
  rw [List.length_map]
  exact ⟨rfl, .cons (.one fun hnear => follows_bindings hps hps' ih (hrest.meets 0 rfl rfl hnear.1))
    (.cons (fieldFollows_one ihbody hbody (Datum.reads_of_draft _ hvalue) (hrest.meets 1 rfl rfl)) .nil)⟩

/-! ### Nodes without brackets of their own -/

theorem lt_of_spanOfAll {first : Datum} {rest : List Datum} (h : (Datum.spanOfAll first rest).start < q) :
    ∃ s ∈ Datum.spansOf (first :: rest), s.start < q := by
  rcases min_lt_iff.mp h with hlt | hlt
  · exact ⟨_, Datum.mem_spansOf_iff.mpr ⟨first, List.mem_cons_self, first.span_mem_spans⟩, hlt⟩
  · exact ⟨_, Datum.mem_spansOf_iff.mpr ⟨_, List.getLast_mem (by simp), Datum.span_mem_spans _⟩, hlt⟩

/-- A node over a row of data is the same over another row that agrees, unless one of them goes on. -/
theorem eq_or_outgrown {first first' : Datum} {rest rest' : List Datum}
    (h : Datum.Agree q (first :: rest) (first' :: rest')) (htag : d.kind.tag = d'.kind.tag)
    (hd : d.span = Datum.spanOfAll first rest) (hd' : d'.span = Datum.spanOfAll first' rest')
    (heq : first :: rest = first' :: rest' → d = d')
    (hfirst : first = first' → first.span.EndsBy q →
      ∃ c ∈ d.kind.children.head?, c ∈ d'.kind.children.head? ∧ c.span = first.span) (hle : d.span.stop ≤ q) :
    d = d' ∨ Outgrown q d d' := by
  have hlast : ∀ {first : Datum} {rest : List Datum}, ∀ e ∈ (first :: rest).getLast?,
      e.span.stop ≤ (Datum.spanOfAll first rest).stop := by
    intro first rest e he
    rw [List.getLast?_eq_getLast_of_ne_nil (List.cons_ne_nil first rest)] at he
    cases he
    exact le_max_right _ _
  rcases h.eq_or_last with hrow | ⟨e, he, hlt⟩ | ⟨⟨e, he, hlt⟩, hhead⟩
  · exact .inl (heq hrow)
  · rw [hd] at hle
    exact absurd (hlt.trans_le (hlast e he)) (not_lt.mpr hle)
  · obtain ⟨hsame, hspan⟩ := hhead first rfl
    obtain ⟨c, hc, hc', hcspan⟩ := hfirst (Option.some.inj hsame).symm hspan
    refine .inr ⟨htag, hd' ▸ hlt.trans_le (hlast e he), c, hc, hc', ?_⟩
    rw [Draft.Near, hcspan]
    exact ⟨hspan.1.trans_le hspan.2, hspan.1⟩

theorem carries_guarded {variety : GuardVariety} {first : Datum × Draft}
    (hform : head.form? = some (.guarded variety)) (hpredicate : Reads .expression predicate predicate')
    (hps : ∀ p ∈ first :: ps, Reads .expression p.1 p.2) (ihpredicate : Carries q .expression predicate predicate')
    (ih : ∀ p ∈ first :: ps, Carries q .expression p.1 p.2) (s : Span) :
    Carries q .expression (.list (head :: predicate :: first.1 :: ps.map Prod.fst) s)
      (.mk s (variety.word ++ " expression") (.whenForm variety.word predicate'
        (.mk (Datum.spanOfAll first.1 (ps.map Prod.fst)) (Text.pluralize "expression" (ps.length + 1))
          (.sequence "begin" (first.2 :: ps.map Prod.snd))))) := by
  refine carries_form (.guarded s hform hpredicate hps) fun head' rest' s' d' hd' hform' _ hrest c _ _ => ?_
  obtain ⟨predicate'', first', others', _, expressions, rfl, hpredicate', hexpressions, rfl⟩ :=
    Datum.draft_guarded (hform'.trans hform) hd'
  obtain ⟨e, ps', rfl, rfl, hps'⟩ := (Datum.reads_of_draftAll _ hexpressions).exists_cons
  rw [List.length_cons, List.length_map]
  refine ⟨rfl, .cons (fieldFollows_one ihpredicate hpredicate (Datum.reads_of_draft _ hpredicate')
    (hrest.meets 0 rfl rfl)) (.cons (.one fun hnear => ?_) .nil)⟩
  obtain ⟨t, ht, hlt⟩ := lt_of_spanOfAll hnear.1
  obtain ⟨_, _, heq, -, hbody⟩ := hrest.exists_cons (List.mem_append_right _ ht) hlt
  cases heq
  refine follows_of_fields (eq_or_outgrown hbody rfl rfl rfl (fun hrow => ?_) fun hfirst _ => ?_) fun c _ _ => ?_
  · cases eq_of_reads hps hps' hrow
    rfl
  · obtain ⟨hreads, -⟩ := List.forall_mem_cons.mp hps
    obtain ⟨hreads', -⟩ := List.forall_mem_cons.mp hps'
    rw [← hfirst] at hreads'
    exact ⟨first.2, rfl, hreads.unique hreads' ▸ rfl, hreads.span_eq⟩
  · exact ⟨rfl, .cons (fieldFollows_many ih hps hps' hbody) .nil⟩

theorem lt_of_parameters {nameSpan : Span} {ns : List (String × Span)}
    (hnear : (Draft.ofNames "parameters" (Datum.parametersSpan nameSpan (ns.map Datum.ofName)) ns).Near q) :
    ∃ s ∈ Datum.spansOf (ns.map Datum.ofName), s.start < q := by
  cases ns with
  | nil => exact absurd hnear.2 (lt_irrefl _)
  | cons n ns => exact lt_of_spanOfAll hnear.1

theorem follows_parameters {name name' : String} {nameSpan nameSpan' : Span} {ns ns' : List (String × Span)}
    (h : Datum.Agree q (.atom name nameSpan :: ns.map Datum.ofName) (.atom name' nameSpan' :: ns'.map Datum.ofName))
    (hnear : (Draft.ofNames "parameters" (Datum.parametersSpan nameSpan (ns.map Datum.ofName)) ns).Near q)
    (steps : List Step) :
    (Draft.ofNames "parameters" (Datum.parametersSpan nameSpan (ns.map Datum.ofName)) ns).Follows q steps
      (Draft.ofNames "parameters" (Datum.parametersSpan nameSpan' (ns'.map Datum.ofName)) ns') := by
  obtain ⟨t, ht, hlt⟩ := lt_of_parameters hnear
  obtain ⟨_, _, heq, -, hrow⟩ := h.exists_cons (List.mem_append_right _ ht) hlt
  cases heq
  cases ns with
  | nil => cases ht
  | cons n ns =>
    obtain ⟨_, _, heq, -, -⟩ := Datum.Agree.exists_cons hrow ht hlt
    obtain ⟨n', ns', rfl, -, -⟩ := List.map_eq_cons_iff.mp heq
    refine follows_of_fields (eq_or_outgrown hrow (by rfl) (by rfl) (by rfl) (fun hsame => ?_) fun hfirst _ => ?_)
      (fun c _ _ => ?_) steps
    · obtain ⟨hn, hns⟩ := List.cons.inj hsame
      cases ofName_injective hn
      rw [List.map_injective_iff.mpr ofName_injective hns]
      rfl
    · cases ofName_injective hfirst
      exact ⟨Draft.ofAtom n.1 n.2, rfl, rfl, Draft.span_ofAtom n.1 n.2⟩
    · exact ⟨rfl, .cons (fieldFollows_names hrow) .nil⟩

/-! ### Definitions -/

theorem lt_of_near {data : List Datum} (hmem : datum ∈ data) (hd : Reads slot datum d) (hnear : d.Near q) :
    ∃ s ∈ Datum.spansOf data, s.start < q :=
  ⟨datum.span, Datum.mem_spansOf_iff.mpr ⟨datum, hmem, datum.span_mem_spans⟩, hd.span_eq ▸ hnear.1⟩

theorem carries_variableDefinition (hform : head.form? = some .define) (name : String) (nameSpan : Span)
    (hbody : Reads .expression body value') (ihbody : Carries q .expression body value') (s : Span) :
    Carries q .expression (.list [head, .atom name nameSpan, body] s)
      (.mk s ("define " ++ name) (.variableDefinition (Draft.ofAtom name nameSpan) value')) := by
  refine carries_form (.variableDefinition name nameSpan s hform hbody)
    fun head' rest' s' d' hd' hform' _ hrest c hc hnear => ?_
  have hlt : ∃ t ∈ Datum.spansOf [.atom name nameSpan, body], t.start < q := by
    have hcases : c = Draft.ofAtom name nameSpan ∨ c = value' := by
      simpa [Draft.kind, Kind.children, Kind.fields, Field.nodes] using hc
    rcases hcases with rfl | rfl
    · exact lt_of_near List.mem_cons_self (.atom name nameSpan) hnear
    · exact lt_of_near (by simp) hbody hnear
  obtain ⟨t, ht, hlt⟩ := hlt
  obtain ⟨_, _, heq, hname, -⟩ := hrest.exists_cons ht hlt
  obtain ⟨name', nameSpan', _, _, rfl, hvalue, rfl⟩ | ⟨_, _, _, _, _, _, rfl, -, -⟩ :=
    Datum.draft_define (hform'.trans hform) hd'
  · exact ⟨rfl, .cons (fieldFollows_one (carries_atom name nameSpan) (.atom name nameSpan) (.atom name' nameSpan')
      (hrest.meets 0 rfl rfl))
      (.cons (fieldFollows_one ihbody hbody (Datum.reads_of_draft _ hvalue) (hrest.meets 1 rfl rfl)) .nil)⟩
  · cases heq
    cases hname

theorem carries_functionDefinition {ns : List (String × Span)} (hform : head.form? = some .define) (name : String)
    (nameSpan headerSpan : Span) (hbody : Reads .expression body value')
    (ihbody : Carries q .expression body value') (s : Span) :
    Carries q .expression (.list [head, .list (.atom name nameSpan :: ns.map Datum.ofName) headerSpan, body] s)
      (.mk s ("define " ++ name) (.functionDefinition (Draft.ofAtom name nameSpan)
        (Draft.ofNames "parameters" (Datum.parametersSpan nameSpan (ns.map Datum.ofName)) ns) value')) := by
  refine carries_form (.functionDefinition name nameSpan headerSpan s ns hform hbody)
    fun head' rest' s' d' hd' hform' _ hrest c hc hnear => ?_
  have hlt : ∃ t ∈ Datum.spansOf [.list (.atom name nameSpan :: ns.map Datum.ofName) headerSpan, body],
      t.start < q := by
    have hcases : c = Draft.ofAtom name nameSpan ∨
        c = Draft.ofNames "parameters" (Datum.parametersSpan nameSpan (ns.map Datum.ofName)) ns ∨ c = value' := by
      simpa [Draft.kind, Kind.children, Kind.fields, Field.nodes] using hc
    rcases hcases with rfl | rfl | rfl
    · obtain ⟨t, ht, hlt⟩ : ∃ t ∈ Datum.spansOf (.atom name nameSpan :: ns.map Datum.ofName), t.start < q :=
        lt_of_near List.mem_cons_self (.atom name nameSpan) hnear
      exact ⟨t, List.mem_append_left _ (List.mem_cons_of_mem _ ht), hlt⟩
    · obtain ⟨t, ht, hlt⟩ := lt_of_parameters hnear
      exact ⟨t, List.mem_append_left _ (List.mem_cons_of_mem _ (List.mem_append_right _ ht)), hlt⟩
    · exact lt_of_near (by simp) hbody hnear
  obtain ⟨t, ht, hlt⟩ := hlt
  obtain ⟨_, _, heq, hheader, hmore⟩ := hrest.exists_cons ht hlt
  obtain ⟨_, _, _, _, rfl, -, -⟩ | ⟨name', nameSpan', _, ns', _, _, rfl, hvalue, rfl⟩ :=
    Datum.draft_define (hform'.trans hform) hd'
  · cases heq
    cases hheader
  · cases heq
    exact ⟨rfl, .cons (fieldFollows_one (carries_atom name nameSpan) (.atom name nameSpan) (.atom name' nameSpan')
      (hheader.parts.meets 0 rfl rfl)) (.cons (.one (follows_parameters hheader.parts))
      (.cons (fieldFollows_one ihbody hbody (Datum.reads_of_draft _ hvalue) (hmore.meets 0 rfl rfl)) .nil))⟩

end Forms

theorem Reads.carries {q : Position} {slot : Slot} {datum : Datum} {d : Draft} (h : Reads slot datum d) :
    Carries q slot datum d := by
  induction h with
  | atom text span => exact carries_atom text span
  | string text span => exact carries_string text span
  | emptyList span =>
    intro datum' d' hd' hmeets steps
    cases hmeets with
    | refl _ => exact (Reads.emptyList span).unique hd' ▸ .refl steps _
    | around _ hfirst _ =>
      obtain ⟨_, hfirst, -⟩ := hfirst
      cases hfirst
  | application span hform hhead hps ihhead ih => exact carries_application hform hhead hps ihhead ih span
  | variableDefinition name nameSpan span hform hbody ih =>
    exact carries_variableDefinition hform name nameSpan hbody ih span
  | functionDefinition name nameSpan headerSpan span ns hform hbody ih =>
    exact carries_functionDefinition hform name nameSpan headerSpan hbody ih span
  | structDefinition name nameSpan fieldsSpan span fields hform => exact carries_structDefinition hform span
  | lambda parametersSpan span ns hform hbody ih => exact carries_lambda hform hbody ih span
  | ifElse span hform ht hc ha iht ihc iha => exact carries_ifElse hform ht hc ha iht ihc iha span
  | conditional span hform hne hps ih => exact carries_conditional hform hne hps ih span
  | clause span hne htest hps ihtest ih => exact carries_clause hne htest hps ihtest ih span
  | begin span hform hne hps ih => exact carries_begin hform hne hps ih span
  | guarded span hform hpredicate hps ihpredicate ih => exact carries_guarded hform hpredicate hps ihpredicate ih span
  | letForm bindingsSpan span hform hps hbody ih ihbody => exact carries_letForm hform hps hbody ih ihbody span
  | binding name nameSpan span hvalue ih => exact carries_binding name nameSpan hvalue ih span

end StructuralEditor.Scheme
