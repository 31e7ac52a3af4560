import StructuralEditor.Content.Rendering
import StructuralEditor.Proofs.Scheme.Grammar

/-!
# What a datum means

* `Means`, `MeansAll` : a datum stands for a draft of a content, and data for drafts of contents;
* `Named` : data that are atoms of names;
* `Means.application`, ..., `Means.binding` : what a list means from what its parts mean, form by form.
-/

namespace StructuralEditor

/-! ## The canonical text of a node -/

namespace Content

theorem rendering_mk (k : Kind Content) : (mk k).rendering = (k.map rendering).rendering := fold_mk Kind.rendering k

theorem text_mk (k : Kind Content) : (mk k).text = (k.map rendering).written := by
  rw [text, rendering_mk]
  rfl

end Content

namespace Scheme

/-! ## Names -/

def atomContent (text : String) : Content := (Draft.ofAtom text default).content

namespace Draft

theorem content_ofAtom (text : String) (span : Span) : (ofAtom text span).content = atomContent text := by
  unfold atomContent ofAtom
  split
  · rw [content_mk, content_mk]
  · rw [content_mk, content_mk]

theorem content_ofNames (role : String) (span : Span) (names : List (String × Span)) :
    (ofNames role span names).content = .mk (.identifiers role ((names.map Prod.fst).map atomContent)) := by
  rw [ofNames, content_mk, Kind.map, List.map_map, List.map_map]
  simp only [Function.comp_def, content_ofAtom]

end Draft

theorem text_atomContent (text : String) : (atomContent text).text = text := by
  unfold atomContent Draft.ofAtom
  split
  · rw [Draft.content_mk, Content.text_mk]
    rfl
  · rw [Draft.content_mk, Content.text_mk]
    rfl

namespace Draft

theorem rendering_content_mk (span : Span) (label : String) (kind : Kind Draft) :
    (mk span label kind).content.rendering = (kind.map fun d => d.content.rendering).rendering := by
  rw [content_mk, Content.rendering_mk, Kind.map_map]
  rfl

theorem text_ofAtom (text : String) (span : Span) : (ofAtom text span).content.rendering.text = text := by
  rw [content_ofAtom]
  exact text_atomContent text

theorem text_ofNames (role : String) (span : Span) (names : List (String × Span)) :
    (ofNames role span names).content.rendering.text = " ".intercalate (names.map Prod.fst) := by
  rw [ofNames, rendering_content_mk]
  simp only [Kind.map, Kind.rendering, Kind.written, List.map_map, Function.comp_def, text_ofAtom]

end Draft

def Named (names : List String) (data : List Datum) : Prop :=
  ∃ ns : List (String × Span), data = ns.map Datum.ofName ∧ ns.map Prod.fst = names

theorem Named.nil : Named [] [] := ⟨[], rfl, rfl⟩

theorem Named.cons {names : List String} {data : List Datum} (h : Named names data) (name : String) (span : Span) :
    Named (name :: names) (.atom name span :: data) := by
  obtain ⟨ns, rfl, rfl⟩ := h
  exact ⟨(name, span) :: ns, rfl, rfl⟩

/-! ## Meanings -/

/-- The datum in the slot stands for a draft of the content. -/
def Means (slot : Slot) (datum : Datum) (content : Content) : Prop :=
  ∃ d, Reads slot datum d ∧ d.content = content

/-- The data stand for drafts of the contents, one for one. -/
def MeansAll (slot : Slot) (data : List Datum) (contents : List Content) : Prop :=
  ∃ ds, ReadsAll slot data ds ∧ ds.map Draft.content = contents

theorem MeansAll.nil (slot : Slot) : MeansAll slot [] [] := ⟨[], .nil slot, rfl⟩

theorem MeansAll.cons {slot : Slot} {datum : Datum} {content : Content} {data : List Datum} {contents : List Content}
    (h : Means slot datum content) (hall : MeansAll slot data contents) :
    MeansAll slot (datum :: data) (content :: contents) := by
  obtain ⟨d, hd, rfl⟩ := h
  obtain ⟨ds, hds, rfl⟩ := hall
  exact ⟨d :: ds, .cons hd hds, rfl⟩

theorem MeansAll.exists_reads {slot : Slot} {data : List Datum} {contents : List Content}
    (h : MeansAll slot data contents) :
    ∃ ps : List (Datum × Draft), data = ps.map Prod.fst ∧ contents = (ps.map Prod.snd).map Draft.content ∧
      ∀ p ∈ ps, Reads slot p.1 p.2 := by
  obtain ⟨_, ⟨ps, rfl, rfl, hps⟩, rfl⟩ := h
  exact ⟨ps, rfl, rfl, hps⟩

theorem ne_nil_of_contents {ps : List (Datum × Draft)} (h : (ps.map Prod.snd).map Draft.content ≠ []) : ps ≠ [] := by
  rintro rfl
  exact h rfl

namespace Means

theorem atom (text : String) (span : Span) : Means .expression (.atom text span) (atomContent text) :=
  ⟨_, .atom text span, Draft.content_ofAtom text span⟩

theorem string (text : String) (span : Span) :
    Means .expression (.string text span) (.mk (.literal text "string")) :=
  ⟨_, .string text span, Draft.content_mk span text _⟩

theorem emptyList (span : Span) : Means .expression (.list [] span) (.mk (.unknown [])) :=
  ⟨_, .emptyList span, Draft.content_mk span "empty list" _⟩

section Forms

variable {head body test consequent alternative predicate : Datum} {data : List Datum}
  {value test' consequent' alternative' predicate' : Content} {contents : List Content} {names : List String}

theorem application {function : Content} (hform : head.form? = none) (hhead : Means .expression head function)
    (harguments : MeansAll .expression data contents) (span : Span) :
    Means .expression (.list (head :: data) span) (.mk (.application function contents)) := by
  obtain ⟨f, hf, rfl⟩ := hhead
  obtain ⟨ps, rfl, rfl, hps⟩ := harguments.exists_reads
  exact ⟨_, .application span hform hf hps, Draft.content_mk ..⟩

theorem variableDefinition (hform : head.form? = some .define) (name : String) (nameSpan : Span)
    (hbody : Means .expression body value) (span : Span) :
    Means .expression (.list [head, .atom name nameSpan, body] span)
      (.mk (.variableDefinition (atomContent name) value)) := by
  obtain ⟨b, hb, rfl⟩ := hbody
  refine ⟨_, .variableDefinition name nameSpan span hform hb, ?_⟩
  rw [Draft.content_mk, Kind.map, Draft.content_ofAtom]

theorem functionDefinition (hform : head.form? = some .define) (name : String) (nameSpan headerSpan : Span)
    (hparameters : Named names data) (hbody : Means .expression body value) (span : Span) :
    Means .expression (.list [head, .list (.atom name nameSpan :: data) headerSpan, body] span)
      (.mk (.functionDefinition (atomContent name) (.mk (.identifiers "parameters" (names.map atomContent)))
        value)) := by
  obtain ⟨ns, rfl, rfl⟩ := hparameters
  obtain ⟨b, hb, rfl⟩ := hbody
  refine ⟨_, .functionDefinition name nameSpan headerSpan span ns hform hb, ?_⟩
  rw [Draft.content_mk, Kind.map, Draft.content_ofAtom, Draft.content_ofNames]

theorem structDefinition (hform : head.form? = some .defineStruct) (name : String) (nameSpan fieldsSpan : Span)
    (hfields : Named names data) (span : Span) :
    Means .expression (.list [head, .atom name nameSpan, .list data fieldsSpan] span)
      (.mk (.structDefinition (atomContent name) (.mk (.identifiers "fields" (names.map atomContent))))) := by
  obtain ⟨ns, rfl, rfl⟩ := hfields
  refine ⟨_, .structDefinition name nameSpan fieldsSpan span ns hform, ?_⟩
  rw [Draft.content_mk, Kind.map, Draft.content_ofAtom, Draft.content_ofNames]

theorem lambda (hform : head.form? = some .lambda) (parametersSpan : Span) (hparameters : Named names data)
    (hbody : Means .expression body value) (span : Span) :
    Means .expression (.list [head, .list data parametersSpan, body] span)
      (.mk (.lambda (.mk (.identifiers "parameters" (names.map atomContent))) value)) := by
  obtain ⟨ns, rfl, rfl⟩ := hparameters
  obtain ⟨b, hb, rfl⟩ := hbody
  refine ⟨_, .lambda parametersSpan span ns hform hb, ?_⟩
  rw [Draft.content_mk, Kind.map, Draft.content_ofNames]

theorem ifElse (hform : head.form? = some .ifElse) (htest : Means .expression test test')
    (hconsequent : Means .expression consequent consequent')
    (halternative : Means .expression alternative alternative') (span : Span) :
    Means .expression (.list [head, test, consequent, alternative] span)
      (.mk (.ifElse test' consequent' alternative')) := by
  obtain ⟨t, ht, rfl⟩ := htest
  obtain ⟨c, hc, rfl⟩ := hconsequent
  obtain ⟨a, ha, rfl⟩ := halternative
  exact ⟨_, .ifElse span hform ht hc ha, Draft.content_mk ..⟩

theorem conditional (hform : head.form? = some .cond) (hne : contents ≠ [])
    (hclauses : MeansAll .clause data contents) (span : Span) :
    Means .expression (.list (head :: data) span) (.mk (.conditional contents)) := by
  obtain ⟨ps, rfl, rfl, hps⟩ := hclauses.exists_reads
  exact ⟨_, .conditional span hform (ne_nil_of_contents hne) hps, Draft.content_mk ..⟩

theorem clause (hne : contents ≠ []) (htest : Means .expression test test')
    (hconsequents : MeansAll .expression data contents) (span : Span) :
    Means .clause (.list (test :: data) span) (.mk (.clause test' contents)) := by
  obtain ⟨t, ht, rfl⟩ := htest
  obtain ⟨ps, rfl, rfl, hps⟩ := hconsequents.exists_reads
  exact ⟨_, .clause span (ne_nil_of_contents hne) ht hps, Draft.content_mk ..⟩

theorem begin (hform : head.form? = some .begin) (hne : contents ≠ [])
    (hexpressions : MeansAll .expression data contents) (span : Span) :
    Means .expression (.list (head :: data) span) (.mk (.sequence "begin" contents)) := by
  obtain ⟨ps, rfl, rfl, hps⟩ := hexpressions.exists_reads
  exact ⟨_, .begin span hform (ne_nil_of_contents hne) hps, Draft.content_mk ..⟩

theorem guarded {variety : GuardVariety} (hform : head.form? = some (.guarded variety)) (hne : contents ≠ [])
    (hpredicate : Means .expression predicate predicate') (hbody : MeansAll .expression data contents) (span : Span) :
    Means .expression (.list (head :: predicate :: data) span)
      (.mk (.whenForm variety.word predicate' (.mk (.sequence "begin" contents)))) := by
  obtain ⟨p, hp, rfl⟩ := hpredicate
  obtain ⟨ps, rfl, rfl, hps⟩ := hbody.exists_reads
  obtain ⟨first, others, rfl⟩ := List.exists_cons_of_ne_nil (ne_nil_of_contents hne)
  refine ⟨_, .guarded span hform hp hps, ?_⟩
  rw [Draft.content_mk, Kind.map, Draft.content_mk]
  rfl

theorem letForm {variety : LetVariety} (hform : head.form? = some (.letForm variety)) (bindingsSpan : Span)
    (hbindings : MeansAll .binding data contents) (hbody : Means .expression body value) (span : Span) :
    Means .expression (.list [head, .list data bindingsSpan, body] span)
      (.mk (.letForm variety.word (.mk (.sequence "bindings" contents)) value)) := by
  obtain ⟨ps, rfl, rfl, hps⟩ := hbindings.exists_reads
  obtain ⟨b, hb, rfl⟩ := hbody
  refine ⟨_, .letForm bindingsSpan span hform hps hb, ?_⟩
  rw [Draft.content_mk, Kind.map, Draft.content_mk]
  rfl

theorem binding (name : String) (nameSpan : Span) (hvalue : Means .expression body value) (span : Span) :
    Means .binding (.list [.atom name nameSpan, body] span)
      (.mk (.variableDefinition (atomContent name) value)) := by
  obtain ⟨b, hb, rfl⟩ := hvalue
  refine ⟨_, .binding name nameSpan span hb, ?_⟩
  rw [Draft.content_mk, Kind.map, Draft.content_ofAtom]

end Forms

end Means

end Scheme

end StructuralEditor
