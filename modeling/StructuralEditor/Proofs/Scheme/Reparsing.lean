import StructuralEditor.Proofs.Scheme.Excerpts
import StructuralEditor.Proofs.Scheme.Forest

/-!
# Nodes read alone

* `Tree.Auxiliary` : the nodes that only make sense as parts of the form around them;
* `Tree.Placed`, `Tree.Placed.child` : a node stands for a datum, or is auxiliary with such nodes below it, and so it is
  with the nodes below it;
* `excerpted_of_parse` : the text of a node that is not auxiliary is parsed alone into what the node says.
-/

namespace StructuralEditor

open Scheme

namespace Kind

variable {α β : Type} {f : α → β} {m : Kind α}

theorem map_eq_letForm {form : String} {a b : β} (h : m.map f = .letForm form a b) :
    ∃ a' b', m = .letForm form a' b' ∧ f a' = a ∧ f b' = b := by
  cases m <;> simp_all [map]

theorem map_eq_whenForm {form : String} {a b : β} (h : m.map f = .whenForm form a b) :
    ∃ a' b', m = .whenForm form a' b' ∧ f a' = a ∧ f b' = b := by
  cases m <;> simp_all [map]

end Kind

theorem Table.Spells.exists_child {t : Table} {id child : Nat} {d : Draft} (h : t.Spells id d)
    (hchild : child ∈ t.children id) : ∃ c ∈ d.kind.children, t.Spells child c := by
  obtain ⟨ps, hfst, hsnd, hbelow⟩ := h.exists_children
  rw [hsnd] at hchild
  obtain ⟨p, hp, rfl⟩ := List.mem_map.mp hchild
  exact ⟨p.1, hfst ▸ List.mem_map_of_mem hp, hbelow p hp⟩

namespace Tree

/-! ## Nodes that are no expressions -/

/-- The node is no expression: a list of names, a clause of a conditional, the bindings of a let form or one of them,
or the body of a form that is run under a condition. -/
inductive Auxiliary (t : Tree) : Nat → Prop
  | names {id : Nat} (h : t.table.tag? id = some .identifiers) : Auxiliary t id
  | clause {id : Nat} (h : t.table.tag? id = some .clause) : Auxiliary t id
  | bindings {above bindings body : Nat} {node : Node} {form : String} (hnode : t.node? above = some node)
    (hkind : node.kind = .letForm form bindings body) : Auxiliary t bindings
  | binding {above bindings body id : Nat} {node : Node} {form : String} (hnode : t.node? above = some node)
    (hkind : node.kind = .letForm form bindings body) (hmem : id ∈ t.children bindings) : Auxiliary t id
  | body {above predicate body : Nat} {node : Node} {form : String} (hnode : t.node? above = some node)
    (hkind : node.kind = .whenForm form predicate body) : Auxiliary t body

/-- The nodes that are auxiliary for the sake of a node of this kind. -/
def auxiliaries (t : Tree) : Kind Nat → List Nat
  | .letForm _ bindings _ => bindings :: t.children bindings
  | .whenForm _ _ body => [body]
  | _ => []

theorem auxiliary_iff {t : Tree} {id : Nat} : t.Auxiliary id ↔ t.table.tag? id = some .identifiers ∨
    t.table.tag? id = some .clause ∨
    ∃ above ∈ List.range t.table.size, ∃ node ∈ t.node? above, id ∈ t.auxiliaries node.kind := by
  have hrange : ∀ {above node}, t.node? above = some node → above ∈ List.range t.table.size := fun hnode =>
    List.mem_range.mpr (Table.exists_get?_iff_lt.mp ⟨_, hnode⟩)
  constructor
  · rintro (h | h | ⟨hnode, hkind⟩ | ⟨hnode, hkind, hmem⟩ | ⟨hnode, hkind⟩)
    · exact .inl h
    · exact .inr (.inl h)
    · exact .inr (.inr ⟨_, hrange hnode, _, hnode, hkind ▸ List.mem_cons_self⟩)
    · exact .inr (.inr ⟨_, hrange hnode, _, hnode, hkind ▸ List.mem_cons_of_mem _ hmem⟩)
    · exact .inr (.inr ⟨_, hrange hnode, _, hnode, hkind ▸ List.mem_cons_self⟩)
  · rintro (h | h | ⟨above, -, node, hnode, hmem⟩)
    · exact .names h
    · exact .clause h
    · unfold auxiliaries at hmem
      split at hmem
      · next form bindings body hkind =>
        rcases List.mem_cons.mp hmem with rfl | hmem
        · exact .bindings hnode hkind
        · exact .binding hnode hkind hmem
      · next form predicate body hkind =>
        obtain rfl := List.mem_singleton.mp hmem
        exact .body hnode hkind
      · cases hmem

instance (t : Tree) (id : Nat) : Decidable (t.Auxiliary id) := decidable_of_iff _ auxiliary_iff.symm

/-! ## Where nodes stand -/

/-- The node stands for a datum with the property, or is auxiliary and has only such nodes below it. -/
inductive Placed (t : Tree) (Q : Datum → Prop) : Nat → Prop
  | expression {id : Nat} {datum : Datum} {d : Draft} (hspells : t.table.Spells id d)
    (hreads : Reads .expression datum d) (hdatum : Q datum) : Placed t Q id
  | auxiliary {id : Nat} (h : t.Auxiliary id) (hchildren : ∀ child ∈ t.children id, Placed t Q child) : Placed t Q id

/-- Whatever spells the draft is placed. -/
def Seats (t : Tree) (Q : Datum → Prop) (d : Draft) : Prop := ∀ id, t.table.Spells id d → t.Placed Q id

section Placed

variable {t : Tree} {Q : Datum → Prop} {id : Nat} {datum : Datum} {d : Draft}

theorem seats_of_reads (hreads : Reads .expression datum d) (hdatum : Q datum) : t.Seats Q d :=
  fun _ hspells => .expression hspells hreads hdatum

theorem seats_of_readsAll {ps : List (Datum × Draft)} (hps : ∀ p ∈ ps, Reads .expression p.1 p.2)
    (hdata : ∀ datum ∈ ps.map Prod.fst, Q datum) : ∀ c ∈ ps.map Prod.snd, t.Seats Q c := by
  intro c hc
  obtain ⟨p, hp, rfl⟩ := List.mem_map.mp hc
  exact seats_of_reads (hps p hp) (hdata p.1 (List.mem_map_of_mem hp))

theorem placed_children {cs : List Draft} (hspells : t.table.Spells id d) (hchildren : d.kind.children = cs)
    (hcs : ∀ c ∈ cs, t.Seats Q c) : ∀ child ∈ t.children id, t.Placed Q child := by
  intro child hchild
  obtain ⟨c, hc, hspells⟩ := hspells.exists_child hchild
  exact hcs c (hchildren ▸ hc) child hspells

theorem placed_two {first second : Draft} (hspells : t.table.Spells id d) (hchildren : d.kind.children = [first, second])
    (hfirst : t.Seats Q first) (hsecond : t.Seats Q second) : ∀ child ∈ t.children id, t.Placed Q child :=
  placed_children hspells hchildren (List.forall_mem_cons.mpr ⟨hfirst, List.forall_mem_singleton.mpr hsecond⟩)

theorem seats_ofNames (role : String) (span : Span) {names : List (String × Span)}
    (hnames : ∀ datum ∈ names.map Datum.ofName, Q datum) : t.Seats Q (Draft.ofNames role span names) := by
  intro id hspells
  refine .auxiliary (.names hspells.tag) (placed_children hspells (children_ofNames role names) ?_)
  refine seats_of_readsAll (fun p hp => ?_) (by rwa [map_fst_names])
  obtain ⟨name, -, rfl⟩ := List.mem_map.mp hp
  exact .atom name.1 name.2

variable (hpart : ∀ {found span}, Q (.list found span) → ∀ datum ∈ found, Q datum)

include hpart

theorem seats_of_clause (hreads : Reads .clause datum d) (hdatum : Q datum) : t.Seats Q d := by
  intro id hspells
  cases hreads with
  | clause span hne htest hconsequents =>
    obtain ⟨hfirst, hrest⟩ := List.forall_mem_cons.mp (hpart hdatum)
    refine .auxiliary (.clause hspells.tag) (placed_children hspells (congrArg (List.cons _) (List.append_nil _)) ?_)
    exact List.forall_mem_cons.mpr ⟨seats_of_reads htest hfirst, seats_of_readsAll hconsequents hrest⟩

/-- A let form holds its bindings in a sequence, and neither this nor they are expressions. -/
theorem placed_bindings {above bindings body : Nat} {node : Node} {form label : String} {ps : List (Datum × Draft)}
    {span : Span} (hnode : t.node? above = some node) (hkind : node.kind = .letForm form bindings body)
    (hspells : t.table.Spells bindings (.mk span label (.sequence "bindings" (ps.map Prod.snd))))
    (hps : ∀ p ∈ ps, Reads .binding p.1 p.2) (hdata : ∀ datum ∈ ps.map Prod.fst, Q datum) : t.Placed Q bindings := by
  refine .auxiliary (.bindings hnode hkind) fun child hchild => .auxiliary (.binding hnode hkind hchild) ?_
  obtain ⟨c, hc, hspells⟩ := hspells.exists_child hchild
  have hc : c ∈ ps.map Prod.snd ++ [] := hc
  rw [List.append_nil] at hc
  obtain ⟨⟨datum, c⟩, hp, rfl⟩ := List.mem_map.mp hc
  have hdatum : Q datum := hdata datum (List.mem_map_of_mem hp)
  cases hps _ hp with
  | binding name nameSpan span hvalue =>
    refine placed_two hspells rfl ?_ ?_
    · exact seats_of_reads (.atom name nameSpan) (hpart hdatum _ (by simp))
    · exact seats_of_reads hvalue (hpart hdatum _ (by simp))

/-- The children of a node that stands for a datum are placed by the parts of the datum. -/
theorem placed_children_of_reads (hspells : t.table.Spells id d) (hreads : Reads .expression datum d)
    (hdatum : Q datum) : ∀ child ∈ t.children id, t.Placed Q child := by
  cases hreads with
  | atom text span => exact placed_children hspells (Draft.children_ofAtom text span) (List.forall_mem_nil _)
  | string text span | emptyList span => exact placed_children hspells rfl (List.forall_mem_nil _)
  | application span hform hhead harguments =>
    obtain ⟨hfirst, hrest⟩ := List.forall_mem_cons.mp (hpart hdatum)
    refine placed_children hspells (congrArg (List.cons _) (List.append_nil _)) ?_
    exact List.forall_mem_cons.mpr ⟨seats_of_reads hhead hfirst, seats_of_readsAll harguments hrest⟩
  | variableDefinition name nameSpan span hform hbody =>
    refine placed_two hspells rfl ?_ ?_
    · exact seats_of_reads (.atom name nameSpan) (hpart hdatum _ (by simp))
    · exact seats_of_reads hbody (hpart hdatum _ (by simp))
  | functionDefinition name nameSpan headerSpan span parameters hform hbody =>
    have hheader := hpart hdatum (.list (.atom name nameSpan :: parameters.map Datum.ofName) headerSpan) (by simp)
    obtain ⟨hname, hparameters⟩ := List.forall_mem_cons.mp (hpart hheader)
    refine placed_children hspells rfl (List.forall_mem_cons.mpr ⟨?_, List.forall_mem_cons.mpr
      ⟨seats_ofNames _ _ hparameters, List.forall_mem_singleton.mpr ?_⟩⟩)
    · exact seats_of_reads (.atom name nameSpan) hname
    · exact seats_of_reads hbody (hpart hdatum _ (by simp))
  | structDefinition name nameSpan fieldsSpan span fields hform =>
    have hfields := hpart hdatum (.list (fields.map Datum.ofName) fieldsSpan) (by simp)
    refine placed_two hspells rfl ?_ ?_
    · exact seats_of_reads (.atom name nameSpan) (hpart hdatum _ (by simp))
    · exact seats_ofNames _ _ (hpart hfields)
  | lambda parametersSpan span parameters hform hbody =>
    have hparameters := hpart hdatum (.list (parameters.map Datum.ofName) parametersSpan) (by simp)
    refine placed_two hspells rfl ?_ ?_
    · exact seats_ofNames _ _ (hpart hparameters)
    · exact seats_of_reads hbody (hpart hdatum _ (by simp))
  | ifElse span hform htest hconsequent halternative =>
    refine placed_children hspells rfl (List.forall_mem_cons.mpr ⟨?_, List.forall_mem_cons.mpr
      ⟨?_, List.forall_mem_singleton.mpr ?_⟩⟩)
    · exact seats_of_reads htest (hpart hdatum _ (by simp))
    · exact seats_of_reads hconsequent (hpart hdatum _ (by simp))
    · exact seats_of_reads halternative (hpart hdatum _ (by simp))
  | conditional span hform hne hclauses =>
    obtain ⟨-, hrest⟩ := List.forall_mem_cons.mp (hpart hdatum)
    refine placed_children hspells (List.append_nil _) fun c hc => ?_
    obtain ⟨p, hp, rfl⟩ := List.mem_map.mp hc
    exact seats_of_clause hpart (hclauses p hp) (hrest p.1 (List.mem_map_of_mem hp))
  | begin span hform hne hexpressions =>
    obtain ⟨-, hrest⟩ := List.forall_mem_cons.mp (hpart hdatum)
    exact placed_children hspells (List.append_nil _) (seats_of_readsAll hexpressions hrest)
  | @guarded variety head predicate predicate' first others span hform hpredicate hbody =>
    obtain ⟨-, htest, hrest⟩ : Q head ∧ Q predicate ∧ ∀ datum ∈ (first :: others).map Prod.fst, Q datum := by
      simpa using hpart hdatum
    obtain ⟨node, m, hnode, -, hkind, hdkind, hbelow⟩ := hspells.exists_get?
    obtain ⟨p, q, rfl, rfl, hq⟩ := Kind.map_eq_whenForm hdkind.symm
    have hspellsTest : t.table.Spells p.2 p.1 := hbelow p List.mem_cons_self
    have hspellsBody : t.table.Spells q.2 q.1 := hbelow q (List.mem_cons_of_mem _ List.mem_cons_self)
    rw [hq] at hspellsBody
    rw [children_of_node? hnode, hkind]
    refine List.forall_mem_cons.mpr ⟨.expression hspellsTest hpredicate htest, List.forall_mem_singleton.mpr ?_⟩
    refine .auxiliary (.body hnode hkind) (placed_children hspellsBody (List.append_nil _) ?_)
    exact seats_of_readsAll hbody hrest
  | @letForm variety head body body' bindings bindingsSpan span hform hbindings hbody =>
    have hlist := hpart hdatum (.list (bindings.map Prod.fst) bindingsSpan) (by simp)
    obtain ⟨node, m, hnode, -, hkind, hdkind, hbelow⟩ := hspells.exists_get?
    obtain ⟨p, q, rfl, hp, rfl⟩ := Kind.map_eq_letForm hdkind.symm
    have hspellsBindings : t.table.Spells p.2 p.1 := hbelow p List.mem_cons_self
    have hspellsBody : t.table.Spells q.2 q.1 := hbelow q (List.mem_cons_of_mem _ List.mem_cons_self)
    rw [hp] at hspellsBindings
    rw [children_of_node? hnode, hkind]
    refine List.forall_mem_cons.mpr ⟨?_, List.forall_mem_singleton.mpr ?_⟩
    · exact placed_bindings hpart hnode hkind hspellsBindings hbindings (hpart hlist)
    · exact .expression hspellsBody hbody (hpart hdatum _ (by simp))

theorem Placed.child {child : Nat} (h : t.Placed Q id) (hchild : child ∈ t.children id) : t.Placed Q child := by
  cases h with
  | expression hspells hreads hdatum => exact placed_children_of_reads hpart hspells hreads hdatum child hchild
  | auxiliary _ hchildren => exact hchildren child hchild

end Placed

end Tree

namespace Scheme

/-- Each node of a planted program is placed by a datum of its tokens, but for the comments behind the last one. -/
theorem placed_plantProgram {tokens : List Token} {items : List Item} {drafts : List Draft} {t : Tree}
    (hnested : Item.Nested maxNesting tokens items) (hdrafts : draftProgram items = .ok drafts)
    (hspelled : Spelled t (drafts ++ (CommentPlan.ofItems items).2.toList.map Draft.ofComment)) :
    ∀ id ∈ t.nodes, t.Placed (Datum.SpelledIn tokens) id ∨
      ∃ c, (CommentPlan.ofItems items).2 = some c ∧ t.table.Spells id (Draft.ofComment c) := by
  refine hspelled.built.nodes_induction (fun root hroot => ?_) fun id _ hid child hchild => ?_
  · obtain ⟨ps, hdata, rfl, hps⟩ := Datum.reads_of_draftAll _ hdrafts
    obtain ⟨d, hd, hspells⟩ := hspelled.exists_draft hroot
    rcases List.mem_append.mp hd with hd | hd
    · obtain ⟨p, hp, rfl⟩ := List.mem_map.mp hd
      have hdatum : p.1 ∈ Item.data items := hdata ▸ List.mem_map_of_mem hp
      exact .inl (.expression hspells (hps p hp) (Datum.spelledIn_of_nested hnested le_rfl p.1 hdatum))
    · obtain ⟨c, hc, rfl⟩ := List.mem_map.mp hd
      exact .inr ⟨c, Option.mem_toList.mp hc, hspells⟩
  · rcases hid with hplaced | ⟨c, -, hspells⟩
    · exact .inl (hplaced.child Datum.SpelledIn.part hchild)
    · obtain ⟨_, hnone, -⟩ := hspells.exists_child hchild
      cases hnone

/-- The text of a node of a parsed tree, unless it only makes sense in the form around it, can be cut out and is parsed
alone into one root, which says what the node says. -/
theorem excerpted_of_parse {depth serial : Nat} {source : String} {t : Tree} (h : parse depth serial source = .ok t) :
    ∀ id ∈ t.nodes, ¬ t.Auxiliary id → Excerpted source (t.span id) (t.table.content id) := by
  intro id hid hexpression
  obtain ⟨tokens, items, drafts, htokens, hitems, hdrafts, rfl⟩ := parse_eq_ok_iff.mp h
  have hnested := Item.read_eq_ok_iff.mp hitems
  have hspelled := spelled_plantProgram depth serial items drafts
  rcases placed_plantProgram hnested hdrafts hspelled id hid with hplaced | ⟨c, hc, hspells⟩
  · cases hplaced with
    | expression hspells hreads hdatum =>
      rw [Tree.span_of_spells hspells, hspells.content hspelled.ordered, hreads.span_eq]
      exact excerpted_of_spelledIn htokens hdatum hreads
    | auxiliary hauxiliary _ => exact absurd hauxiliary hexpression
  · rw [Tree.span_of_spells hspells, hspells.content hspelled.ordered]
    exact excerpted_of_trailing htokens hnested hc

theorem excerpted_of_parse_when : ∃ t, parse 1 0 "(let ([é \"a\\\"\n\"]) ;n\n (when é ;m\n [f é])) ;end" = .ok t ∧
    ∃ id ∈ t.nodes, ¬ t.Auxiliary id ∧ t.span id = ⟨⟨2, 1⟩, ⟨3, 7⟩⟩ ∧
      Excerpted "(let ([é \"a\\\"\n\"]) ;n\n (when é ;m\n [f é])) ;end" (t.span id) (t.table.content id) := by
  have hok : ∃ t ∈ (parse 1 0 "(let ([é \"a\\\"\n\"]) ;n\n (when é ;m\n [f é])) ;end").toOption,
      ∃ id ∈ t.nodes, ¬ t.Auxiliary id ∧ t.span id = ⟨⟨2, 1⟩, ⟨3, 7⟩⟩ := by decide +kernel
  obtain ⟨t, ht, id, hid, hexpression, hspan⟩ := hok
  rw [mem_toOption_iff] at ht
  exact ⟨t, ht, id, hid, hexpression, hspan, excerpted_of_parse ht id hid hexpression⟩

end Scheme

end StructuralEditor
