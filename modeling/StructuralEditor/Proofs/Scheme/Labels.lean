import StructuralEditor.Proofs.Scheme.Grammar
import StructuralEditor.Proofs.Scheme.Identities
import StructuralEditor.Proofs.Tree.Reconciliation

/-!
# Labels

Nodes that say the same can have different labels, but not where the same is expected.

* `Slot.child` : what is expected of a child, from its parent's form and its field;
* `labelIn` : the label of a node, from its slot and what it says;
* `Draft.Labelled`, `Reads.labelled` : every node that is read has that label;
* `Labelled`, `labelled_parse` : so it is in parsed trees;
* `reconcile_alike` : what a reconciled tree takes over changes no label.
-/

namespace StructuralEditor

namespace Scheme

/-- What is expected of a child in this field of a node of this form. -/
def Slot.child : Slot → Tag → Nat → Slot
  | _, .conditional, _ => .clause
  | _, .letForm, 0 => .bindings
  | .bindings, .sequence, _ => .binding
  | _, .whenForm, 1 => .body
  | _, _, _ => .expression

def atomText : Content → String
  | .mk (.literal value _) | .mk (.blank value _) => value
  | _ => ""

/-- The label of an application, from what its head says. -/
def headLabel : Content → String
  | .mk (.literal value type) => if type = "string" then "expression" else value ++ " expression"
  | .mk (.blank value _) => value ++ " expression"
  | _ => "expression"

def namesLabel (role : String) (names : List String) : String :=
  if names.isEmpty then "no " ++ role else role ++ ": " ++ ", ".intercalate names

def sequenceLabel : Slot → Nat → String
  | .bindings, length => Text.pluralize "binding" length
  | .body, length => Text.pluralize "expression" length
  | _, _ => "begin expression"

def labelIn (slot : Slot) : Kind Content → String
  | .unknown _ => "empty list"
  | .application head _ => headLabel head
  | .identifiers role names => namesLabel role (names.map atomText)
  | .structDefinition name _ => "define-struct " ++ atomText name
  | .variableDefinition name _ => (if slot = .binding then "bind " else "define ") ++ atomText name
  | .functionDefinition name _ _ => "define " ++ atomText name
  | .lambda .. => "lambda expression"
  | .clause .. => "condition"
  | .conditional clauses => "cond expression with " ++ Text.pluralize "condition" clauses.length
  | .ifElse .. => "if expression"
  | .literal value _ => value
  | .comment text => text
  | .blank .. => "blank"
  | .sequence _ expressions => sequenceLabel slot expressions.length
  | .letForm form .. => form ++ " expression"
  | .whenForm form .. => form ++ " expression"
  | _ => ""

/-! ## Drafts -/

/-- Every node of the draft has the label that goes with its slot and what it says. -/
inductive Draft.Labelled : Slot → Draft → Prop
  | mk {slot : Slot} {span : Span} {label : String} {kind : Kind Draft}
    (here : label = labelIn slot (kind.map Draft.content))
    (below : ∀ s child, kind.child? s = some child → Labelled (slot.child kind.tag s.field) child) :
    Labelled slot (.mk span label kind)

/-- The children in the fields from `index` on of a node of this form are labelled. -/
def Draft.FieldsLabelled (slot : Slot) (tag : Tag) : Nat → List (Field Draft) → Prop
  | _, [] => True
  | index, field :: rest =>
    (∀ child ∈ field.nodes, child.Labelled (slot.child tag index)) ∧ FieldsLabelled slot tag (index + 1) rest

theorem Draft.FieldsLabelled.get {slot : Slot} {tag : Tag} {index : Nat} {fields : List (Field Draft)}
    (h : FieldsLabelled slot tag index fields) {i : Nat} {field : Field Draft} (hi : fields[i]? = some field) :
    ∀ child ∈ field.nodes, child.Labelled (slot.child tag (index + i)) := by
  induction fields generalizing index i with
  | nil => cases hi
  | cons first rest ih =>
    obtain ⟨hfirst, hrest⟩ := h
    cases i with
    | zero =>
      cases hi
      exact hfirst
    | succ i =>
      rw [Nat.add_comm i 1, ← Nat.add_assoc]
      exact ih hrest hi

theorem Draft.Labelled.of_fields {slot : Slot} {span : Span} {label : String} {kind : Kind Draft}
    (here : label = labelIn slot (kind.map Draft.content)) (below : FieldsLabelled slot kind.tag 0 kind.fields) :
    Labelled slot (.mk span label kind) := by
  refine .mk here fun s child hchild => ?_
  obtain ⟨field, hfield, hindex⟩ := Option.bind_eq_some_iff.mp hchild
  have hlabelled := below.get hfield child (List.mem_of_getElem? hindex)
  rwa [Nat.zero_add] at hlabelled

theorem Draft.Labelled.label_eq {slot : Slot} {d : Draft} (h : d.Labelled slot) :
    d.label = labelIn slot d.content.kind := by
  cases h with
  | mk here _ =>
    rw [Draft.content_mk]
    exact here

theorem Draft.Labelled.child {slot : Slot} {d c : Draft} (h : d.Labelled slot) {s : Step}
    (hs : d.kind.child? s = some c) : c.Labelled (slot.child d.kind.tag s.field) := by
  cases h with
  | mk _ below => exact below s c hs

theorem atomText_ofAtom (text : String) (span : Span) : atomText (Draft.ofAtom text span).content = text := by
  unfold Draft.ofAtom
  split
  · rw [Draft.content_mk]
    rfl
  · rw [Draft.content_mk]
    rfl

theorem labelled_ofAtom (slot : Slot) (text : String) (span : Span) : (Draft.ofAtom text span).Labelled slot := by
  unfold Draft.ofAtom
  split
  · exact .of_fields rfl trivial
  · exact .of_fields rfl trivial

theorem labelled_ofNames (slot : Slot) (role : String) (span : Span) (names : List (String × Span)) :
    (Draft.ofNames role span names).Labelled slot := by
  unfold Draft.ofNames
  refine .of_fields ?_ ?_
  · have htexts : (names.map fun name => Draft.ofAtom name.1 name.2).map (atomText ∘ Draft.content) =
        names.map (·.1) := by
      rw [List.map_map]
      exact List.map_congr_left fun name _ => atomText_ofAtom name.1 name.2
    show _ = namesLabel role (((names.map fun name => Draft.ofAtom name.1 name.2).map Draft.content).map atomText)
    rw [List.map_map, htexts, namesLabel, List.isEmpty_map]
  · refine ⟨fun child hchild => ?_, trivial⟩
    obtain ⟨name, -, rfl⟩ := List.mem_map.mp hchild
    exact labelled_ofAtom _ _ _

theorem atomType_ne_string (text : String) : atomType text ≠ "string" := by
  unfold atomType
  split
  · decide
  · split <;> decide

/-- The label of an application depends only on what its head says. -/
theorem applicationLabel_eq {head : Datum} {d : Draft} (h : Reads .expression head d) :
    Datum.applicationLabel head = headLabel d.content := by
  cases h with
  | atom text span =>
    unfold Draft.ofAtom
    split
    · rw [Draft.content_mk]
      rfl
    · rw [Draft.content_mk]
      exact (if_neg (atomType_ne_string text)).symm
  | string text span =>
    rw [Draft.content_mk]
    show "expression" = if "string" = "string" then "expression" else text ++ " expression"
    rw [if_pos rfl]
  | emptyList | application | variableDefinition | functionDefinition | structDefinition | lambda | ifElse
  | conditional | begin | guarded | letForm =>
    rw [Draft.content_mk]
    rfl

theorem labelled_one {slot : Slot} {d : Draft} (h : d.Labelled slot) :
    ∀ child ∈ (Field.one (some d)).nodes, child.Labelled slot := by
  intro child hchild
  obtain rfl := List.mem_singleton.mp hchild
  exact h

theorem labelled_many {slot : Slot} {ps : List (Datum × Draft)} (h : ∀ p ∈ ps, p.2.Labelled slot) :
    ∀ child ∈ (Field.many (ps.map Prod.snd)).nodes, child.Labelled slot := by
  intro child hchild
  obtain ⟨p, hp, rfl⟩ := List.mem_map.mp hchild
  exact h p hp

/-- Every node that is read has the label that goes with its slot and what it says. -/
theorem Reads.labelled {slot : Slot} {datum : Datum} {d : Draft} (h : Reads slot datum d) : d.Labelled slot := by
  induction h with
  | atom text span => exact labelled_ofAtom _ _ _
  | string text span => exact .of_fields rfl trivial
  | emptyList span => exact .of_fields rfl ⟨by simp [Field.nodes], trivial⟩
  | application span hform hhead harguments ihhead iharguments =>
    exact .of_fields (applicationLabel_eq hhead) ⟨labelled_one ihhead, labelled_many iharguments, trivial⟩
  | variableDefinition name nameSpan span hform hbody ihbody =>
    refine .of_fields ?_ ⟨labelled_one (labelled_ofAtom _ _ _), labelled_one ihbody, trivial⟩
    show "define " ++ name = "define " ++ atomText (Draft.ofAtom name nameSpan).content
    rw [atomText_ofAtom]
  | functionDefinition name nameSpan headerSpan span parameters hform hbody ihbody =>
    refine .of_fields ?_ ⟨labelled_one (labelled_ofAtom _ _ _), labelled_one (labelled_ofNames _ _ _ _),
      labelled_one ihbody, trivial⟩
    show "define " ++ name = "define " ++ atomText (Draft.ofAtom name nameSpan).content
    rw [atomText_ofAtom]
  | structDefinition name nameSpan fieldsSpan span fields hform =>
    refine .of_fields ?_ ⟨labelled_one (labelled_ofAtom _ _ _), labelled_one (labelled_ofNames _ _ _ _), trivial⟩
    show "define-struct " ++ name = "define-struct " ++ atomText (Draft.ofAtom name nameSpan).content
    rw [atomText_ofAtom]
  | lambda parametersSpan span parameters hform hbody ihbody =>
    exact .of_fields rfl ⟨labelled_one (labelled_ofNames _ _ _ _), labelled_one ihbody, trivial⟩
  | ifElse span hform htest hconsequent halternative ihtest ihconsequent ihalternative =>
    exact .of_fields rfl ⟨labelled_one ihtest, labelled_one ihconsequent, labelled_one ihalternative, trivial⟩
  | @conditional head clauses span hform hne hclauses ihclauses =>
    refine .of_fields ?_ ⟨labelled_many ihclauses, trivial⟩
    show _ = "cond expression with " ++ Text.pluralize "condition" ((clauses.map Prod.snd).map Draft.content).length
    rw [List.length_map, List.length_map]
  | clause span hne htest hconsequents ihtest ihconsequents =>
    exact .of_fields rfl ⟨labelled_one ihtest, labelled_many ihconsequents, trivial⟩
  | begin span hform hne hexpressions ihexpressions => exact .of_fields rfl ⟨labelled_many ihexpressions, trivial⟩
  | @guarded variety head predicate predicate' first others span hform hpredicate hbody ihpredicate ihbody =>
    refine .of_fields rfl ⟨labelled_one ihpredicate, labelled_one (.of_fields ?_ ⟨?_, trivial⟩), trivial⟩
    · show _ = Text.pluralize "expression" (((first :: others).map Prod.snd).map Draft.content).length
      rw [List.length_map, List.length_map, List.length_cons]
    · show ∀ child ∈ (Field.many ((first :: others).map Prod.snd)).nodes, _
      exact labelled_many ihbody
  | @letForm variety head body body' bindings bindingsSpan span hform hbindings hbody ihbindings ihbody =>
    refine .of_fields rfl ⟨labelled_one (.of_fields ?_ ⟨labelled_many ihbindings, trivial⟩), labelled_one ihbody,
      trivial⟩
    show _ = Text.pluralize "binding" ((bindings.map Prod.snd).map Draft.content).length
    rw [List.length_map, List.length_map]
  | binding name nameSpan span hvalue ihvalue =>
    refine .of_fields ?_ ⟨labelled_one (labelled_ofAtom _ _ _), labelled_one ihvalue, trivial⟩
    show "bind " ++ name = "bind " ++ atomText (Draft.ofAtom name nameSpan).content
    rw [atomText_ofAtom]

end Scheme

/-! ## Tables -/

namespace Table

open Scheme (Slot Draft)

variable {t u old new : Table}

/-- What is taken over in the same slot is what was there, but for the identity. -/
theorem options_of_takes (ho : old.Ordered) (hn : new.Ordered) {o n : Nat} {steps : List Step} {x : Adoption}
    (htakes : Takes old new o n steps x) {slot : Slot} {d e : Draft} (hd : old.Spells o d) (he : new.Spells n e)
    (hdslot : d.Labelled slot) (heslot : e.Labelled slot) {node : Node} (hnode : new.get? x.target = some node) :
    x.options.getD node.options = node.options := by
  -- The forms on the way are the same in both tables, so the two ends stay in one slot.
  induction steps generalizing o n slot d e with
  | nil =>
    obtain ⟨o', n', a, b, hso, hsn, ha, hb, -, -, rfl⟩ := htakes
    cases hso
    cases hsn
    cases hb.symm.trans hnode
    unfold adoptionOf
    by_cases hcontent : old.content o = new.content n
    · rw [hd.content ho, he.content hn] at hcontent
      have hlabel : d.label = e.label := by rw [hdslot.label_eq, heslot.label_eq, hcontent]
      rw [hd.content ho, he.content hn, if_pos hcontent, Option.getD_some, hd.options ha, he.options hb, hlabel]
    · rw [if_neg hcontent, Option.getD_none]
  | cons s rest ih =>
    obtain ⟨htag, o', n', hso, hsn, hrest⟩ := takes_cons.mp htakes
    obtain ⟨c, hc, hspells⟩ := hd.child hso
    obtain ⟨c', hc', hspells'⟩ := he.child hsn
    have hslot := hdslot.child hc
    rw [hd.tag, he.tag] at htag
    rw [Option.some.inj htag] at hslot
    exact ih hrest hspells hspells' hslot (heslot.child hc')

theorem anonymous_adopt {x : Adoption}
    (h : ∀ node, t.get? x.target = some node → x.options.getD node.options = node.options) :
    (t.adopt x).anonymous = t.anonymous := by
  refine anonymous_eq_iff.mpr fun n => ?_
  rw [get?_adopt]
  split
  · next htarget =>
    cases hnode : t.get? n with
    | none => rfl
    | some node =>
      have hoptions := h node (htarget ▸ hnode)
      simp [Adoption.onto, Node.anonymous, hoptions]
  · rfl

theorem anonymous_foldl_adopt {xs : List Adoption}
    (h : ∀ x ∈ xs, ∀ node, t.get? x.target = some node → x.options.getD node.options = node.options) :
    (xs.foldl adopt t).anonymous = t.anonymous := by
  induction xs generalizing t with
  | nil => rfl
  | cons x xs ih =>
    obtain ⟨hx, hxs⟩ := List.forall_mem_cons.mp h
    rw [List.foldl_cons, ih, anonymous_adopt hx]
    intro y hy node hnode
    rw [get?_adopt] at hnode
    split at hnode
    · next htarget =>
      obtain ⟨node', hnode', rfl⟩ := Option.map_eq_some_iff.mp hnode
      show y.options.getD (x.options.getD node'.options) = x.options.getD node'.options
      rw [hx node' (htarget ▸ hnode')]
      exact hxs y hy node' hnode'
    · exact hxs y hy node hnode

end Table

/-! ## Trees -/

namespace Scheme

/-- Every root spells an expression whose nodes are labelled. -/
structure Labelled (t : Tree) : Prop where
  ordered : t.table.Ordered
  spells : ∀ root ∈ t.roots, ∃ d, t.table.Spells root d ∧ d.Labelled .expression

theorem labelled_draftProgram {items : List Item} {drafts : List Draft} (h : draftProgram items = .ok drafts) :
    ∀ d ∈ drafts, d.Labelled .expression := by
  obtain ⟨ps, -, rfl, hps⟩ := Datum.reads_of_draftAll _ h
  intro d hd
  obtain ⟨p, hp, rfl⟩ := List.mem_map.mp hd
  exact (hps p hp).labelled

theorem labelled_ofComment (comment : Comment) : (Draft.ofComment comment).Labelled .expression :=
  .of_fields rfl trivial

theorem Spelled.labelled {t : Tree} {drafts : List Draft} (h : Spelled t drafts)
    (hdrafts : ∀ d ∈ drafts, d.Labelled .expression) : Labelled t where
  ordered := h.ordered
  spells := by
    intro root hroot
    obtain ⟨i, hi⟩ := List.mem_iff_getElem?.mp hroot
    have hlt : i < drafts.length := by
      rw [← h.roots.length_eq]
      exact (List.getElem?_eq_some_iff.mp hi).1
    have hd : drafts[i]? = some drafts[i] := List.getElem?_eq_getElem hlt
    refine ⟨drafts[i], ?_, hdrafts _ (List.mem_of_getElem? hd)⟩
    exact (List.forall₂_iff_zip.mp h.roots).2 (mem_zip_iff.mpr ⟨i, hi, hd⟩)

theorem labelled_parse {depth serial : Nat} {text : String} {t : Tree} (h : parse depth serial text = .ok t) :
    Labelled t := by
  obtain ⟨tokens, items, drafts, -, -, hdrafts, rfl⟩ := parse_eq_ok_iff.mp h
  refine (spelled_plantProgram depth serial items drafts).labelled fun d hd => ?_
  rcases List.mem_append.mp hd with hd | hd
  · exact labelled_draftProgram hdrafts d hd
  · obtain ⟨comment, -, rfl⟩ := List.mem_map.mp hd
    exact labelled_ofComment comment

theorem Labelled.of_alike {t u : Tree} (h : Labelled t) (halike : t.Alike u) : Labelled u where
  ordered := by
    intro id child
    rw [← Table.children_eq_of_anonymous halike.nodes]
    exact h.ordered id child
  spells := by
    rw [← halike.roots]
    intro root hroot
    obtain ⟨d, hspells, hd⟩ := h.spells root hroot
    exact ⟨d, hspells.of_anonymous halike.nodes, hd⟩

/-- Nothing but identities changes when a tree takes over what it can from another, unless digests collide. -/
theorem reconcile_alike [Hasher] {old new : Tree} (hold : Labelled old) (hnew : Labelled new)
    (hfree : old.CollisionFree new) (hlayout : new.layout = Layout.ofRoots new.table new.roots) :
    (old.reconcile new).1.Alike new := by
  have hnodes : ((old.adoptions new).foldl Table.adopt new.table).anonymous = new.table.anonymous := by
    refine Table.anonymous_foldl_adopt fun x hx node hnode => ?_
    obtain ⟨⟨o, n⟩, hpair, hx⟩ := List.mem_flatMap.mp hx
    have htells := hfree.tells hold.ordered hnew.ordered
    obtain ⟨steps, htakes⟩ := (Table.mem_adoptions_iff hold.ordered hnew.ordered htells).mp hx
    obtain ⟨d, hd, hdslot⟩ := hold.spells o (List.of_mem_zip hpair).1
    obtain ⟨e, he, heslot⟩ := hnew.spells n (List.of_mem_zip hpair).2
    exact Table.options_of_takes hold.ordered hnew.ordered htakes hd he hdslot heslot hnode
  refine ⟨hnodes, rfl, ?_, rfl⟩
  rw [hlayout]
  exact Layout.alike_ofRoots hnodes new.roots

end Scheme

end StructuralEditor
